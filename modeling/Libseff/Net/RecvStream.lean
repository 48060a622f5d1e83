import Libseff.Net.Await

/-!
# Receiving a stream

A peer sends bytes and hangs up; the socket keeps the bytes until they are received. A caller of
`await_recv` receives until the first result 0, which means that the peer has hung up.

`await_recv` tests the hang-up before the bytes. When the bytes and the hang-up arrive between its
first attempt and its poll, it gives 0 and leaves the bytes in the socket. So nothing is dropped
just if no poll reports both (`nothingDropped_iff`).
-/

set_option autoImplicit false
set_option relaxedAutoImplicit false

namespace Libseff.Net

open Libseff.Foundation
open Libseff.Foundation.SystemCalls

/-! ### The socket -/

/-- A connected socket: the bytes that have not been received, whether the peer has hung up, all
bytes it has sent, `errno`, and the buffer of the caller. -/
structure Socket where
  queue : List UInt8
  hungUp : Bool
  sent : List UInt8
  errno : ℤ
  buffer : Buffer

inductive SocketEvent
  | arrive (bytes : List UInt8)
  | hangUp

/-- The calls on a socket. A `recv` has room for one byte at least: it gives some of the bytes, or
no bytes after the hang-up, or it would block. A poll ends with what there is to report. -/
def socketKernel : Surroundings Call Answer Socket SocketEvent where
  answers socket request answer after :=
    match request, answer with
    | .recv capacity, some bytes =>
      bytes <+: socket.queue ∧ bytes.length ≤ capacity ∧
        (bytes = [] → socket.queue = [] ∧ socket.hungUp = true) ∧
        after = { socket with
          queue := socket.queue.drop bytes.length, buffer := fill socket.buffer bytes }
    | .recv _, none =>
      socket.queue = [] ∧ socket.hungUp = false ∧ after = { socket with errno := EAGAIN }
    | .errno, err => err = socket.errno ∧ after = socket
    | .poll _, some events =>
      (READ &&& events ≠ 0 ↔ socket.queue ≠ []) ∧ (HANGUP &&& events ≠ 0 ↔ socket.hungUp = true) ∧
        events ≠ 0 ∧ after = socket
    | .poll _, none => False
    | .store index byte, _ =>
      after = { socket with buffer := Function.update socket.buffer index byte }
    | .load length, bytes =>
      bytes = (List.range length.toNat).map (fun index : ℕ ↦ socket.buffer index) ∧ after = socket
    | .send _ _, _ => False
  happens socket event after :=
    match event with
    | .arrive bytes => socket.hungUp = false ∧
      after = { socket with queue := socket.queue ++ bytes, sent := socket.sent ++ bytes }
    | .hangUp => after = { socket with hungUp := true }

/-! ### The caller -/

/-- Receives until the first result 0, and keeps the received chunks. The size of the buffer may
depend on them. -/
def receiveAll (bufsz : List (List UInt8) → ℕ) :
    Loop Call Answer (List (List UInt8)) (Option (List (List UInt8))) := fun chunks ↦ do
  match ← awaitRecv (bufsz chunks) with
  | none => return .inr none
  | some n =>
    if n > 0 then
      return .inl (chunks ++ [← ask Answer (.load n)])
    else if n = 0 then
      return .inr (some chunks)
    else
      return .inl chunks

/-- The runs of the caller on a socket from which nothing has been received. -/
def streamSystem (bufsz : List (List UInt8) → ℕ) :
    TransitionSystem
      (Activity Call Answer (List (List UInt8)) (Option (List (List UInt8))) × Socket)
      (Label Call Answer SocketEvent) :=
  (receiveAll bufsz).system socketKernel [] fun socket ↦ socket.queue = socket.sent

/-- All bytes that the peer has sent have been received. -/
def NothingDropped (result : Option (List (List UInt8))) (socket : Socket) : Prop :=
  ∃ chunks, result = some chunks ∧ chunks.flatten = socket.sent

/-- A poll does not report both bytes and a hang-up. -/
def NotBoth : Label Call Answer SocketEvent → Prop
  | .answer (.poll _) (some events) => READ &&& events = 0 ∨ HANGUP &&& events = 0
  | _ => True

def NeverBoth (labels : List (Label Call Answer SocketEvent)) : Prop :=
  ∀ label ∈ labels, NotBoth label

theorem neverBoth_concat_iff {labels : List (Label Call Answer SocketEvent)}
    {label : Label Call Answer SocketEvent} :
    NeverBoth (labels ++ [label]) ↔ NeverBoth labels ∧ NotBoth label := by
  rw [NeverBoth, List.forall_mem_append, List.forall_mem_singleton, NeverBoth]

/-! ### What stays -/

variable {chunks : List (List UInt8)} {bytes : List UInt8}
  {history later : History Call Answer Socket SocketEvent}

/-- Bytes arrive as long as the peer has not hung up, and nothing else changes. -/
theorem later_of_happens (hhappens : Happens socketKernel history later) :
    (NeverBoth later.1 ↔ NeverBoth history.1) ∧ later.2.buffer = history.2.buffer ∧
      later.2.errno = history.2.errno ∧ ∃ bytes, later.2.queue = history.2.queue ++ bytes ∧
        later.2.sent = history.2.sent ++ bytes ∧
          (history.2.hungUp = true → bytes = [] ∧ later.2.hungUp = true) := by
  obtain ⟨labels, socket⟩ := history
  obtain ⟨laterLabels, laterSocket⟩ := later
  obtain ⟨event, hevent, hlabels⟩ := hhappens
  have hnever : NeverBoth laterLabels ↔ NeverBoth labels := by
    change laterLabels = labels ++ [.event event] at hlabels
    rw [hlabels, neverBoth_concat_iff]
    exact and_iff_left trivial
  refine ⟨hnever, ?_⟩
  cases event with
  | arrive bytes =>
    obtain ⟨hopen, hafter⟩ := hevent
    change socket.hungUp = false at hopen
    change laterSocket = { socket with
      queue := socket.queue ++ bytes, sent := socket.sent ++ bytes } at hafter
    subst hafter
    exact ⟨rfl, rfl, bytes, rfl, rfl, fun hclosed ↦ absurd (hopen.symm.trans hclosed) (by decide)⟩
  | hangUp =>
    change laterSocket = { socket with hungUp := true } at hevent
    subst hevent
    exact ⟨rfl, rfl, [], (List.append_nil _).symm, (List.append_nil _).symm, fun _ ↦ ⟨rfl, rfl⟩⟩

/-- What has been received and what is in the socket are what has been sent. -/
structure Streams (chunks : List (List UInt8)) (history : History Call Answer Socket SocketEvent) :
    Prop where
  never : NeverBoth history.1
  sent : history.2.sent = chunks.flatten ++ history.2.queue

theorem stable_streams : Stable socketKernel (Streams chunks) := by
  intro history later h hhappens
  obtain ⟨hnever, -, -, bytes, hqueue, hsent, -⟩ := later_of_happens hhappens
  refine ⟨hnever.mpr h.never, ?_⟩
  rw [hsent, h.sent, hqueue, List.append_assoc]

/-- A chunk has been received into the buffer. -/
structure HasChunk (chunks : List (List UInt8)) (bytes : List UInt8)
    (history : History Call Answer Socket SocketEvent) : Prop where
  never : NeverBoth history.1
  sent : history.2.sent = chunks.flatten ++ (bytes ++ history.2.queue)
  buffer : ∀ index (hindex : index < bytes.length), history.2.buffer index = bytes[index]

theorem stable_hasChunk : Stable socketKernel (HasChunk chunks bytes) := by
  intro history later h hhappens
  obtain ⟨hnever, hbuffer, -, bytes, hqueue, hsent, -⟩ := later_of_happens hhappens
  refine ⟨hnever.mpr h.never, ?_, ?_⟩
  · rw [hsent, h.sent, hqueue, List.append_assoc, List.append_assoc]
  · rw [hbuffer]
    exact h.buffer

/-- The peer has hung up, and all bytes have been received just if no poll has reported both. -/
structure Ended (chunks : List (List UInt8)) (history : History Call Answer Socket SocketEvent) :
    Prop where
  hungUp : history.2.hungUp = true
  all_iff : chunks.flatten = history.2.sent ↔ NeverBoth history.1

theorem stable_ended : Stable socketKernel (Ended chunks) := by
  intro history later h hhappens
  obtain ⟨hnever, -, -, bytes, -, hsent, hclosed⟩ := later_of_happens hhappens
  obtain ⟨rfl, hstill⟩ := hclosed h.hungUp
  refine ⟨hstill, ?_⟩
  rw [hsent, List.append_nil, h.all_iff, hnever]

theorem stable_errno {err : ℤ} : Stable socketKernel fun history ↦ history.2.errno = err := by
  intro history later h hhappens
  rw [(later_of_happens hhappens).2.2.1]
  exact h

theorem stable_queue : Stable socketKernel fun history ↦ history.2.queue ≠ [] := by
  intro history later h hhappens
  obtain ⟨-, -, -, bytes, hqueue, -⟩ := later_of_happens hhappens
  rw [hqueue]
  exact List.append_ne_nil_of_left_ne_nil h _

/-! ### One call -/

/-- The conditions of a program in all runs in which the bytes are counted. -/
abbrev EnsuresCounted {Result : Type}
    (right : History Call Answer Socket SocketEvent → Result → Prop)
    (program : Program Call Answer Result) (history : History Call Answer Socket SocketEvent) :
    Prop :=
  program.Ensures socketKernel (fun _ ↦ Counted) (fun _ _ ↦ True) right history

/-- What a call gives: nothing, a chunk that is in the buffer, or the end. -/
def Gives (chunks : List (List UInt8)) (history : History Call Answer Socket SocketEvent)
    (result : Option ℤ) : Prop :=
  (result = some (-1) ∧ Streams chunks history) ∨
    (∃ bytes, bytes ≠ [] ∧ result = some (bytes.length : ℤ) ∧ HasChunk chunks bytes history) ∨
    (result = some 0 ∧ Ended chunks history)

/-- A `recv` takes a chunk, or there is nothing to take. -/
theorem ensures_recv {Result : Type} {capacity : ℕ}
    {next : Option (List UInt8) → Program Call Answer Result}
    {right : History Call Answer Socket SocketEvent → Result → Prop}
    {condition : History Call Answer Socket SocketEvent → Prop}
    (hstable : Stable socketKernel condition) (hcondition : condition history)
    (hstreams : ∀ history, condition history → Streams chunks history)
    (hchunk : ∀ bytes later, bytes.length < 2 ^ 31 → bytes ≠ [] → HasChunk chunks bytes later →
      EnsuresCounted right (next (some bytes)) later)
    (hend : ∀ before later, condition before → before.2.queue = [] → Ended chunks later →
      EnsuresCounted right (next (some [])) later)
    (hnone : ∀ before later, condition before → before.2.queue = [] → before.2.hungUp = false →
      later = (before.1 ++ [.answer (.recv capacity) none],
        { before.2 with errno := EAGAIN }) → EnsuresCounted right (next none) later) :
    EnsuresCounted right (ask Answer (.recv capacity) >>= next) history := by
  refine ensures_ask_of_stable hstable hcondition fun before hbefore ↦ ⟨trivial, ?_⟩
  intro delivery after hanswer hcounted
  obtain ⟨hnever, hsent⟩ := hstreams before hbefore
  have hneverLater : NeverBoth (before.1 ++ [.answer (.recv capacity) delivery]) :=
    neverBoth_concat_iff.mpr ⟨hnever, trivial⟩
  cases delivery with
  | none =>
    obtain ⟨hempty, hopen, hafter⟩ := hanswer
    exact hnone before _ hbefore hempty hopen (by rw [hafter])
  | some bytes =>
    simp only [Counted] at hcounted
    obtain ⟨hbegins, -, hclosed, hafter⟩ := hanswer
    obtain ⟨rest, hrest⟩ := hbegins
    rw [← hrest] at hsent
    by_cases hbytes : bytes = []
    · obtain ⟨hempty, hhungUp⟩ := hclosed hbytes
      subst hbytes
      refine hend before _ hbefore hempty ⟨?_, ?_⟩
      · rw [hafter]
        exact hhungUp
      · refine iff_of_true ?_ hneverLater
        rw [hafter]
        rw [hrest, hempty, List.append_nil] at hsent
        exact hsent.symm
    · refine hchunk bytes _ hcounted hbytes ⟨hneverLater, ?_, fun index hindex ↦ ?_⟩
      · rw [hafter, ← hrest, List.drop_left]
        exact hsent
      · rw [hafter]
        exact fill_of_lt _ hindex

/-- What stands behind a chunk may be stored. -/
theorem HasChunk.store {index : ℤ} {byte : UInt8} {stored : Unit}
    (h : HasChunk chunks bytes history) (hindex : bytes.length ≤ index) :
    HasChunk chunks bytes (history.1 ++ [.answer (.store index byte) stored],
      { history.2 with buffer := Function.update history.2.buffer index byte }) := by
  refine ⟨neverBoth_concat_iff.mpr ⟨h.never, trivial⟩, h.sent, fun at' hat ↦ ?_⟩
  dsimp only
  rw [Function.update_of_ne (by omega)]
  exact h.buffer at' hat

/-- The beginning of the buffer is the chunk. -/
theorem HasChunk.load (h : HasChunk chunks bytes history) :
    (List.range (bytes.length : ℤ).toNat).map (fun index : ℕ ↦ history.2.buffer index) = bytes := by
  refine List.ext_getElem (by simp) fun index hindex hbytes ↦ ?_
  rw [List.getElem_map, List.getElem_range]
  exact h.buffer index hbytes

theorem Ended.store {index : ℤ} {byte : UInt8} {stored : Unit} (h : Ended chunks history) :
    Ended chunks (history.1 ++ [.answer (.store index byte) stored],
      { history.2 with buffer := Function.update history.2.buffer index byte }) := by
  refine ⟨h.hungUp, h.all_iff.trans ?_⟩
  rw [neverBoth_concat_iff]
  exact (and_iff_left trivial).symm

/-- A hang-up is reported: it is the end if there are no bytes, and they are not received if there
are some. -/
theorem Streams.ended {events : BitVec 16} (h : Streams chunks history)
    (hread : READ &&& events ≠ 0 ↔ history.2.queue ≠ [])
    (hhangup : HANGUP &&& events ≠ 0 ↔ history.2.hungUp = true)
    (hreported : HANGUP &&& events ≠ 0) :
    Ended chunks (history.1 ++ [.answer (.poll READ) (some events)], history.2) := by
  refine ⟨hhangup.mp hreported, ?_⟩
  rw [neverBoth_concat_iff, h.sent, NotBoth, or_iff_left hreported, and_iff_right h.never,
    List.self_eq_append_right]
  exact (not_iff_not.mp hread).symm

/-- What a call gives on a socket from which some chunks have been received. -/
theorem awaitRecv_gives {bufsz : ℕ} (h : Streams chunks history) :
    EnsuresCounted (Gives chunks) (awaitRecv bufsz) history := by
  have hminus : asInt (received none) = -1 := by decide
  have hzero : asInt (received (some [])) = 0 := by decide
  unfold awaitRecv
  refine ensures_recv stable_streams h (fun _ h ↦ h) ?_ ?_ ?_
  · intro bytes later hcounted hbytes hchunk
    have hint := asInt_received hcounted
    have hpos := List.length_pos_of_ne_nil hbytes
    simp only [ge_iff_le, if_pos (show 0 ≤ asInt (received (some bytes)) by omega)]
    rw [hint]
    refine ensures_ask_of_stable stable_hasChunk hchunk fun before hbefore ↦ ⟨trivial, ?_⟩
    rintro stored after rfl -
    exact ensures_done_of_stable stable_hasChunk (hbefore.store le_rfl)
      fun _ hlast ↦ .inr (.inl ⟨bytes, hbytes, rfl, hlast⟩)
  · intro before later hbefore hempty hended
    simp only [hzero, ge_iff_le, le_refl, if_true]
    refine ensures_ask_of_stable stable_ended hended fun before hbefore ↦ ⟨trivial, ?_⟩
    rintro stored after rfl -
    exact ensures_done_of_stable stable_ended hbefore.store fun _ hlast ↦ .inr (.inr ⟨rfl, hlast⟩)
  · intro before later hbefore hempty hopen hlater
    simp only [hminus, ge_iff_le, Int.reduceNeg, Int.reduceLE, if_false]
    have hrefused : Streams chunks later ∧ later.2.errno = EAGAIN := by
      rw [hlater]
      exact ⟨⟨neverBoth_concat_iff.mpr ⟨hbefore.never, trivial⟩, hbefore.sent⟩, rfl⟩
    refine ensures_ask_of_stable (stable_streams.and stable_errno) hrefused
      fun asked hasked ↦ ⟨trivial, ?_⟩
    rintro err after ⟨rfl, rfl⟩ -
    rw [if_neg (by rw [hasked.2]; decide), pollAwait]
    have hwaits : Streams chunks (asked.1 ++ [.answer .errno asked.2.errno], asked.2) :=
      ⟨neverBoth_concat_iff.mpr ⟨hasked.1.never, trivial⟩, hasked.1.sent⟩
    refine ensures_ask_of_stable stable_streams hwaits fun polled hpolled ↦ ⟨trivial, ?_⟩
    intro revents after hanswer _
    cases revents with
    | none => exact hanswer.elim
    | some events =>
      obtain ⟨hread, hhangup, -, rfl⟩ := hanswer
      dsimp only
      split_ifs with hup hnothing
      · exact ensures_done_of_stable stable_ended (hpolled.ended hread hhangup hup)
          fun _ hlast ↦ .inr (.inr ⟨rfl, hlast⟩)
      · have hsame : Streams chunks (polled.1 ++ [.answer (.poll READ) (some events)], polled.2) :=
          ⟨neverBoth_concat_iff.mpr ⟨hpolled.never, .inl hnothing⟩, hpolled.sent⟩
        exact ensures_done_of_stable stable_streams hsame fun _ hlast ↦ .inl ⟨rfl, hlast⟩
      · -- there are bytes, and only this caller takes them
        have hsome : Streams chunks (polled.1 ++ [.answer (.poll READ) (some events)], polled.2) ∧
            polled.2.queue ≠ [] :=
          ⟨⟨neverBoth_concat_iff.mpr ⟨hpolled.never, .inr (not_not.mp hup)⟩, hpolled.sent⟩,
            hread.mp hnothing⟩
        refine ensures_recv (stable_streams.and stable_queue) hsome (fun _ h ↦ h.1) ?_ ?_ ?_
        · intro bytes last hcounted hbytes hchunk
          rw [asInt_received hcounted]
          exact ensures_done_of_stable stable_hasChunk hchunk
            fun _ hlast ↦ .inr (.inl ⟨bytes, hbytes, rfl, hlast⟩)
        · exact fun before _ hbefore hempty _ ↦ absurd hempty hbefore.2
        · exact fun before _ hbefore hempty _ _ ↦ absurd hempty hbefore.2

/-! ### The caller -/

/-- A round adds a chunk, or it ends. -/
theorem receiveAll_ensures {bufsz : List (List UInt8) → ℕ} (h : Streams chunks history) :
    EnsuresCounted (Keeps (fun history chunks ↦ Streams chunks history)
      fun history result ↦ ∃ chunks, result = some chunks ∧ Ended chunks history)
      (receiveAll bufsz chunks) history := by
  unfold receiveAll
  refine ensures_bind ((awaitRecv_gives h).mono fun later result hgives ↦ ?_)
  rcases hgives with ⟨rfl, hstreams⟩ | ⟨bytes, hbytes, rfl, hchunk⟩ | ⟨rfl, hended⟩
  · exact ensures_done_of_stable stable_streams hstreams fun _ hlast ↦ hlast
  · have hpos := List.length_pos_of_ne_nil hbytes
    simp only [gt_iff_lt, if_pos (show (0 : ℤ) < bytes.length by omega)]
    refine ensures_ask_of_stable stable_hasChunk hchunk fun before hbefore ↦ ⟨trivial, ?_⟩
    rintro loaded after ⟨hloaded, rfl⟩ -
    have hadded : Streams (chunks ++ [loaded])
        (before.1 ++ [.answer (.load bytes.length) loaded], before.2) := by
      refine ⟨neverBoth_concat_iff.mpr ⟨hbefore.never, trivial⟩, ?_⟩
      rw [hloaded, hbefore.load, List.flatten_append, List.flatten_singleton, List.append_assoc]
      exact hbefore.sent
    exact ensures_done_of_stable stable_streams hadded fun _ hlast ↦ hlast
  · exact ensures_done_of_stable stable_ended hended fun _ hlast ↦ ⟨chunks, rfl, hlast⟩

/-- Assumes: an `int` counts the bytes of every delivery. When the caller has ended, it has received
all that has been sent if and only if no poll has reported both bytes and a hang-up. -/
theorem nothingDropped_iff {bufsz : List (List UInt8) → ℕ}
    {labels : List (Label Call Answer SocketEvent)} {result : Option (List (List UInt8))}
    {socket : Socket}
    (hrun : (streamSystem bufsz).Run (fun _ label ↦ Counted label) labels
      (.returned result, socket)) :
    NothingDropped result socket ↔ NeverBoth labels := by
  have hstart : ∀ socket : Socket, socket.queue = socket.sent → Streams [] ([], socket) :=
    fun socket hsame ↦ ⟨fun _ hmem ↦ absurd hmem List.not_mem_nil, hsame.symm⟩
  obtain ⟨chunks, rfl, hended⟩ := Loop.meets_of_run (fun _ ↦ Counted) hrun hstart
    fun history chunks ↦ receiveAll_ensures
  constructor
  · rintro ⟨_, hchunks, hall⟩
    obtain rfl := Option.some_inj.mp hchunks
    exact hended.all_iff.mp hall
  · intro hnever
    exact ⟨chunks, rfl, hended.all_iff.mpr hnever⟩

/-- One byte is received at once, another one after a poll, and then the peer hangs up. -/
def twoBytes : List (Label Call Answer SocketEvent) :=
  [.answer (.recv 2) (some [65]), .answer (.store 1 0) (), .answer (.load 1) [65],
    .answer (.recv 2) none, .answer .errno EAGAIN, .event (.arrive [66]),
    .answer (.poll READ) (some READ), .answer (.recv 2) (some [66]), .answer (.load 1) [66],
    .event .hangUp, .answer (.recv 2) (some []), .answer (.store 0 0) ()]

theorem nothingDropped_twoBytes :
    ∃ socket, (streamSystem fun _ ↦ 2).Run (fun _ label ↦ Counted label) twoBytes
        (.returned (some [[65], [66]]), socket) ∧ NothingDropped (some [[65], [66]]) socket := by
  have hrecv : (streamSystem fun _ ↦ 2).Run (fun _ label ↦ Counted label) []
      (.calling (.recv 2) _, ⟨[65], false, [65], 0, fun _ ↦ 1⟩) :=
    .start ⟨.call _ _, rfl⟩
  have himmediate : (streamSystem fun _ ↦ 2).Run (fun _ label ↦ Counted label) (twoBytes.take 1)
      (.calling (.store 1 0) _, ⟨[], false, [65], 0, _⟩) :=
    hrecv.step (by simp [Counted])
      (.answer ⟨List.prefix_refl _, by decide, by simp, rfl⟩ (.call _ _))
  have hstored : (streamSystem fun _ ↦ 2).Run (fun _ label ↦ Counted label) (twoBytes.take 2)
      (.calling (.load 1) _, ⟨[], false, [65], 0, _⟩) :=
    himmediate.step trivial (.answer rfl (.call _ _))
  have hloaded : (streamSystem fun _ ↦ 2).Run (fun _ label ↦ Counted label) (twoBytes.take 3)
      (.calling (.recv 2) _, ⟨[], false, [65], 0, _⟩) :=
    hstored.step trivial (.answer ⟨rfl, rfl⟩ (.round (.call _ _)))
  have hrefused : (streamSystem fun _ ↦ 2).Run (fun _ label ↦ Counted label) (twoBytes.take 4)
      (.calling .errno _, ⟨[], false, [65], EAGAIN, _⟩) :=
    hloaded.step trivial (.answer ⟨rfl, rfl, rfl⟩ (.call _ _))
  have hasked : (streamSystem fun _ ↦ 2).Run (fun _ label ↦ Counted label) (twoBytes.take 5)
      (.calling (.poll READ) _, ⟨[], false, [65], EAGAIN, _⟩) :=
    hrefused.step trivial (.answer ⟨rfl, rfl⟩ (.call _ _))
  have harrived : (streamSystem fun _ ↦ 2).Run (fun _ label ↦ Counted label) (twoBytes.take 6)
      (.calling (.poll READ) _, ⟨[66], false, [65, 66], EAGAIN, _⟩) :=
    hasked.step trivial (.event ⟨rfl, rfl⟩)
  have hpolled : (streamSystem fun _ ↦ 2).Run (fun _ label ↦ Counted label) (twoBytes.take 7)
      (.calling (.recv 2) _, ⟨[66], false, [65, 66], EAGAIN, _⟩) :=
    harrived.step trivial
      (.answer ⟨by simp [READ], by simp [READ, HANGUP], by decide, rfl⟩ (.call _ _))
  have hawaited : (streamSystem fun _ ↦ 2).Run (fun _ label ↦ Counted label) (twoBytes.take 8)
      (.calling (.load 1) _, ⟨[], false, [65, 66], EAGAIN, _⟩) :=
    hpolled.step (by simp [Counted])
      (.answer ⟨List.prefix_refl _, by decide, by simp, rfl⟩ (.call _ _))
  have hread : (streamSystem fun _ ↦ 2).Run (fun _ label ↦ Counted label) (twoBytes.take 9)
      (.calling (.recv 2) _, ⟨[], false, [65, 66], EAGAIN, _⟩) :=
    hawaited.step trivial (.answer ⟨rfl, rfl⟩ (.round (.call _ _)))
  have hclosed : (streamSystem fun _ ↦ 2).Run (fun _ label ↦ Counted label) (twoBytes.take 10)
      (.calling (.recv 2) _, ⟨[], true, [65, 66], EAGAIN, _⟩) :=
    hread.step trivial (.event rfl)
  have hended : (streamSystem fun _ ↦ 2).Run (fun _ label ↦ Counted label) (twoBytes.take 11)
      (.calling (.store 0 0) _, ⟨[], true, [65, 66], EAGAIN, _⟩) :=
    hclosed.step (by simp [Counted])
      (.answer ⟨List.nil_prefix, by decide, fun _ ↦ ⟨rfl, rfl⟩, rfl⟩ (.call _ _))
  have hreturned : (streamSystem fun _ ↦ 2).Run (fun _ label ↦ Counted label) twoBytes
      (.returned (some [[65], [66]]), ⟨[], true, [65, 66], EAGAIN, _⟩) :=
    hended.step trivial (.answer rfl (.returned _))
  exact ⟨_, hreturned, (nothingDropped_iff hreturned).mpr
    (by simp [NeverBoth, NotBoth, twoBytes, READ, HANGUP])⟩

/-- A byte and the hang-up arrive after the first attempt: the byte is not received. -/
theorem nothingDropped_counterexample :
    ∃ socket, (streamSystem fun _ ↦ 2).Run (fun _ label ↦ Counted label)
        [.answer (.recv 2) none, .answer .errno EAGAIN, .event (.arrive [65]), .event .hangUp,
          .answer (.poll READ) (some (READ ||| HANGUP))] (.returned (some []), socket) ∧
      ¬NothingDropped (some []) socket := by
  have hrecv : (streamSystem fun _ ↦ 2).Run (fun _ label ↦ Counted label) []
      (.calling (.recv 2) _, ⟨[], false, [], 0, fun _ ↦ 1⟩) :=
    .start ⟨.call _ _, rfl⟩
  have hrefused : (streamSystem fun _ ↦ 2).Run (fun _ label ↦ Counted label)
      [.answer (.recv 2) none] (.calling .errno _, ⟨[], false, [], EAGAIN, fun _ ↦ 1⟩) :=
    hrecv.step trivial (.answer ⟨rfl, rfl, rfl⟩ (.call _ _))
  have hasked : (streamSystem fun _ ↦ 2).Run (fun _ label ↦ Counted label)
      [.answer (.recv 2) none, .answer .errno EAGAIN]
      (.calling (.poll READ) _, ⟨[], false, [], EAGAIN, fun _ ↦ 1⟩) :=
    hrefused.step trivial (.answer ⟨rfl, rfl⟩ (.call _ _))
  have harrived : (streamSystem fun _ ↦ 2).Run (fun _ label ↦ Counted label)
      [.answer (.recv 2) none, .answer .errno EAGAIN, .event (.arrive [65])]
      (.calling (.poll READ) _, ⟨[65], false, [65], EAGAIN, fun _ ↦ 1⟩) :=
    hasked.step trivial (.event ⟨rfl, rfl⟩)
  have hclosed : (streamSystem fun _ ↦ 2).Run (fun _ label ↦ Counted label)
      [.answer (.recv 2) none, .answer .errno EAGAIN, .event (.arrive [65]), .event .hangUp]
      (.calling (.poll READ) _, ⟨[65], true, [65], EAGAIN, fun _ ↦ 1⟩) :=
    harrived.step trivial (.event rfl)
  have hpolled : (streamSystem fun _ ↦ 2).Run (fun _ label ↦ Counted label)
      [.answer (.recv 2) none, .answer .errno EAGAIN, .event (.arrive [65]), .event .hangUp,
        .answer (.poll READ) (some (READ ||| HANGUP))]
      (.returned (some []), ⟨[65], true, [65], EAGAIN, fun _ ↦ 1⟩) :=
    hclosed.step trivial (.answer ⟨by simp [READ, HANGUP], by simp [READ, HANGUP], by decide, rfl⟩
      (.returned _))
  refine ⟨_, hpolled, fun ⟨chunks, hchunks, hall⟩ ↦ ?_⟩
  rw [← Option.some_inj.mp hchunks] at hall
  exact nomatch hall

end Libseff.Net
