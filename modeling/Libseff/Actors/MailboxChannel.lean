import Libseff.Actors.MailboxDelivery

/-!
# A mailbox with one sender

With one sender the messages get their tickets in the order in which they are inserted, and the
sender counts a message as ready only after it has stored it. So the receiver never reads a slot too
early, and the mailbox is a bounded channel: the removed messages are a prefix of the inserted ones,
and the messages that are not removed stay in their slots (`Channel`). What remains of the condition
for any number of senders is that no message is stored in the slot of an older one because the
64-bit `write_loc` has wrapped (`Unwrapped`), which happens only where the capacity does not divide
`2 ^ 64`.

A call that fails does so at the load or at the compare-exchange with which it begins, and has
changed nothing before.
-/

set_option autoImplicit false
set_option relaxedAutoImplicit false

namespace Libseff.Actors.Mailbox

open Foundation

variable {Msg : Type*} {capacity : ℕ}

/-- The message of a sender that has got a ticket, until its call returns. -/
def SenderPc.inHand : SenderPc Msg → List Msg
  | .store msg _ => [msg]
  | .addReady msg _ => [msg]
  | .done msg true => [msg]
  | _ => []

/-- The message of a sender that has counted it as ready: its call returns true. -/
def SenderPc.counted : SenderPc Msg → List Msg
  | .done msg true => [msg]
  | _ => []

variable [NeZero capacity]

/-- The steps in which the sender does not store its message in the slot of an unread one whose
ticket was drawn before `write_loc` wrapped. -/
def Unwrapped (s : State Msg Unit capacity) : Label Msg Unit → Prop
  | .senderStep _ _ => ∀ msg ticket, s.senders () = .store msg ticket →
      ∀ earlier, s.unread ≤ earlier → earlier / 2 ^ 64 < ticket / 2 ^ 64 →
        (slot earlier : Fin capacity) ≠ slot ticket
  | _ => True

/-- A bounded channel: the removed messages are the first ones of those whose insertion succeeds, no
more than `capacity` messages have a slot that is not cleared, each of those stored is still in its
slot, and the assertion of `actor_remove_msg` has not failed. -/
structure Channel (labels : List (Label Msg Unit)) (s : State Msg Unit capacity) : Prop where
  fifo : returned labels <+: accepted labels ++ (s.senders ()).counted
  uncleared_le : s.memory.writeLoc - s.unread ≤ capacity
  stored : ∀ ticket msg, s.unread ≤ ticket → ¬ s.Pending ticket →
    (drawn labels)[ticket]? = some msg → s.memory.mailbox (slot ticket) = some msg
  asserted : s.receiver ≠ .failed

/-- A run with one sender keeps account of the messages in their order. -/
structure Ordered (labels : List (Label Msg Unit)) (s : State Msg Unit capacity) : Prop where
  delivered : Delivered labels s
  drawn_eq : drawn labels = accepted labels ++ (s.senders ()).inHand
  latest : ∀ msg ticket, s.senders () = .store msg ticket → ticket + 1 = s.memory.writeLoc

variable {labels : List (Label Msg Unit)} {label : Label Msg Unit}
  {s next : State Msg Unit capacity}

/-- The receiver has not drawn the ticket of a message that is not stored. -/
theorem Ordered.inTicketOrder (h : Ordered labels s) (hunwrapped : Unwrapped s label) :
    InTicketOrder s label := by
  cases label with
  | receiverStep =>
    rintro ticket hread ⟨⟩ msg hstore
    have hat := h.delivered.represents.receiver
    rw [hread] at hat
    have hlatest := h.latest msg ticket hstore
    have hle := h.delivered.represents.counts.start_le
    have hpublishing : total SenderPc.publishing s.senders = 1 := by
      rw [total, Finset.univ_unique, Finset.sum_singleton]
      exact congrArg SenderPc.publishing hstore
    change s.memory.start = ticket + 1 at hat
    omega
  | senderStep sender result => exact hunwrapped
  | _ => trivial

/-- A step of the sender keeps the order of the messages. -/
theorem SenderPc.inHand_advance {pc pc' : SenderPc Msg} {m memory : Memory Msg capacity}
    (hadvance : pc.advance m = some (pc', memory)) :
    pc'.inHand = pc.inHand ++ pc.draws.toList ∧
      ∀ msg ticket, pc' = .store msg ticket → ticket + 1 = memory.writeLoc := by
  cases pc with
  | loadReserved | exchange =>
    simp only [advance] at hadvance
    split_ifs at hadvance <;> obtain ⟨rfl, rfl⟩ := Prod.mk.inj (Option.some.inj hadvance) <;>
      exact ⟨rfl, by simp⟩
  | addWriteLoc msg =>
    obtain ⟨rfl, rfl⟩ := Prod.mk.inj (Option.some.inj hadvance)
    refine ⟨rfl, fun _ ticket heq ↦ ?_⟩
    rw [(SenderPc.store.inj heq).2]
  | store | addReady =>
    obtain ⟨rfl, rfl⟩ := Prod.mk.inj (Option.some.inj hadvance)
    exact ⟨rfl, by simp⟩
  | idle | done => cases hadvance

theorem ReceiverPc.writeLoc_advance {pc pc' : ReceiverPc Msg} {m memory : Memory Msg capacity}
    (hadvance : pc.advance m = some (pc', memory)) : memory.writeLoc = m.writeLoc := by
  cases pc with
  | loadReady | exchange | check =>
    simp only [advance] at hadvance
    split_ifs at hadvance <;> rw [← (Prod.mk.inj (Option.some.inj hadvance)).2]
  | idle | done | failed => cases hadvance
  | _ => rw [← (Prod.mk.inj (Option.some.inj hadvance)).2]

theorem Ordered.step (h : Ordered labels s) (hcalloc : capacity * 8 < 2 ^ 64)
    (hunwrapped : Unwrapped s label) (hstep : Step s label next) :
    Ordered (labels ++ [label]) next := by
  have hdelivered := h.delivered.step hcalloc (h.inTicketOrder hunwrapped) hstep
  have hdrawn := h.drawn_eq
  refine ⟨hdelivered, ?_, ?_⟩
  · rw [drawn_concat, accepted_append, hdrawn]
    cases hstep with
    | insert sender msg hidle =>
      rw [hidle]
      dsimp only
      rw [Function.update_self]
      simp [drawn, accepted, SenderPc.inHand]
    | @senderStep sender pc memory hadvance =>
      dsimp only
      rw [Function.update_self, (SenderPc.inHand_advance hadvance).1, drawn_senderStep]
      simp [accepted]
    | @insertFinish sender msg result hdone =>
      rw [hdone]
      dsimp only
      rw [Function.update_self]
      cases result <;> simp [drawn, accepted, SenderPc.inHand]
    | _ => simp [drawn, accepted]
  · cases hstep with
    | insert | insertFinish =>
      dsimp only
      rw [Function.update_self]
      exact nofun
    | @senderStep sender pc memory hadvance =>
      dsimp only
      rw [Function.update_self]
      exact (SenderPc.inHand_advance hadvance).2
    | receiverStep hadvance =>
      dsimp only
      rw [ReceiverPc.writeLoc_advance hadvance]
      exact h.latest
    | remove | removeFinish => exact h.latest

theorem ordered_of_run (hcalloc : capacity * 8 < 2 ^ 64)
    (hrun : (system Msg Unit capacity).Run Unwrapped labels s) : Ordered labels s := by
  refine hrun.history (fun s hstart ↦ ?_) fun _ _ _ _ h hunwrapped hstep ↦
    h.step hcalloc hunwrapped hstep
  have hidle := hstart.2.1 ()
  refine ⟨.init hstart, ?_, ?_⟩
  · simp [hidle, drawn, accepted, SenderPc.inHand]
  · rw [hidle]
    exact nofun

/-- A run that keeps account of its messages is a channel. -/
theorem Ordered.channel (h : Ordered labels s) : Channel labels s := by
  have hrepresents := h.delivered.represents
  have hlength := hrepresents.length
  refine
    { fifo := ?_
      uncleared_le := ?_
      stored := fun ticket msg hunread hstored hmsg ↦ ?_
      asserted := fun hpc ↦ ?_ }
  · have hstart := hrepresents.counts.start_le
    have hpublishing : total SenderPc.publishing s.senders = (s.senders ()).publishing := by
      rw [total, Finset.univ_unique, Finset.sum_singleton]
    have hdrawn := h.drawn_eq
    have hcount : (accepted labels).length + (s.senders ()).inHand.length = s.memory.writeLoc := by
      rw [← hlength, hdrawn, List.length_append]
    rw [h.delivered.returned_eq, hdrawn]
    cases hpc : s.senders () with
    | store msg ticket | addReady msg ticket =>
      -- its message is the last one with a ticket, and the receiver has drawn fewer
      rw [hpc] at hpublishing hcount
      change (accepted labels).length + 1 = _ at hcount
      change total SenderPc.publishing s.senders = 1 at hpublishing
      rw [List.take_append_of_le_length (by omega)]
      exact (List.take_prefix ..).trans (List.prefix_append ..)
    | done msg result => cases result <;> exact List.take_prefix ..
    | _ => exact List.take_prefix ..
  · have hwindow := hrepresents.writeLoc_le
    omega
  · have hlt : ticket < (drawn labels).length := (List.getElem?_eq_some_iff.mp hmsg).1
    rw [hrepresents.buffer.filled ticket hlt hunread hstored, hmsg]
  · have hat := hrepresents.receiver
    rw [hpc] at hat
    exact hat

/-! ### Calls that fail -/

/-- The steps from the call of `actor_insert_msg` until it returns. -/
def Inserting (s : State Msg Unit capacity) (label : Label Msg Unit) : Prop :=
  Unwrapped s label ∧ ∀ msg result, label ≠ .insertFinish () msg result

/-- The steps from the call of `actor_remove_msg` until it returns. -/
def Removing (s : State Msg Unit capacity) (label : Label Msg Unit) : Prop :=
  Unwrapped s label ∧ ∀ result, label ≠ .removeFinish result

/-- The steps that leave every counter and slot as it is, where they are those of one actor. -/
def Leaves (ours : Label Msg Unit → Prop) (s : State Msg Unit capacity) (label : Label Msg Unit) :
    Prop :=
  ours label → ∀ after, Step s label after → after.memory = s.memory

/-- A state that an insertion has come through. -/
def Passed (start : State Msg Unit capacity) (call : List (Label Msg Unit))
    (s : State Msg Unit capacity) : Prop :=
  ∃ before, before <+: call ∧ ((system Msg Unit capacity).startedIn start).Run Inserting before s

/-- An insertion has found the mailbox full, or `reserved_size` changed between its load and its
compare-exchange. -/
def Refused (start : State Msg Unit capacity) (msg : Msg) (call : List (Label Msg Unit)) : Prop :=
  ∃ loaded, Passed start call loaded ∧ loaded.senders () = .loadReserved msg ∧
    (loaded.memory.reservedSize = capacity ∨ ∃ exchanged, Passed start call exchanged ∧
      exchanged.senders () = .exchange msg loaded.memory.reservedSize ∧
      exchanged.memory.reservedSize ≠ loaded.memory.reservedSize)

variable {start : State Msg Unit capacity} {call : List (Label Msg Unit)} {msg : Msg}

theorem Passed.concat (h : Passed start call s) (label : Label Msg Unit) :
    Passed start (call ++ [label]) s := by
  obtain ⟨before, hprefix, hrun⟩ := h
  exact ⟨before, hprefix.trans (List.prefix_append ..), hrun⟩

theorem Refused.concat (h : Refused start msg call) (label : Label Msg Unit) :
    Refused start msg (call ++ [label]) := by
  obtain ⟨loaded, hloaded, hpc, hfull | ⟨exchanged, hexchanged, hchanged⟩⟩ := h
  · exact ⟨loaded, hloaded.concat label, hpc, .inl hfull⟩
  · exact ⟨loaded, hloaded.concat label, hpc, .inr ⟨exchanged, hexchanged.concat label, hchanged⟩⟩

/-- How far an insertion is that has reserved no space. -/
def InsertProgress (start : State Msg Unit capacity) (msg : Msg) (call : List (Label Msg Unit)) :
    SenderPc Msg → Prop
  | .idle => False
  | .loadReserved current => current = msg
  | .exchange current oldSize => current = msg ∧ ∃ loaded, Passed start call loaded ∧
      loaded.senders () = .loadReserved msg ∧ loaded.memory.reservedSize = oldSize
  | .done current false => current = msg ∧ Refused start msg call
  | _ => True

/-- The points of a sender that has reserved no space. -/
def SenderPc.Unreserved : SenderPc Msg → Prop
  | .loadReserved _ => True
  | .exchange _ _ => True
  | .done _ false => True
  | _ => False

theorem InsertProgress.concat {pc : SenderPc Msg} (h : InsertProgress start msg call pc)
    (label : Label Msg Unit) : InsertProgress start msg (call ++ [label]) pc := by
  cases pc with
  | exchange current oldSize =>
    obtain ⟨hmsg, loaded, hloaded, hpc⟩ := h
    exact ⟨hmsg, loaded, hloaded.concat label, hpc⟩
  | done current result =>
    cases result with
    | false => exact ⟨h.1, h.2.concat label⟩
    | true => trivial
  | _ => exact h

/-- What holds while a sender inserts a message. -/
structure InsertCall (start : State Msg Unit capacity) (msg : Msg) (call : List (Label Msg Unit))
    (s : State Msg Unit capacity) : Prop where
  run : ((system Msg Unit capacity).startedIn start).Run Inserting call s
  counts : Counts s
  progress : InsertProgress start msg call (s.senders ())
  leaves : (s.senders ()).Unreserved →
    ((system Msg Unit capacity).startedIn start).Run (Leaves fun label ↦ ¬ label.ByReceiver) call s

/-- A step of the sender itself. -/
theorem InsertCall.advance (h : InsertCall start msg call s) (hcalloc : capacity * 8 < 2 ^ 64)
    {pc : SenderPc Msg} {memory : Memory Msg capacity}
    (hadvance : (s.senders ()).advance s.memory = some (pc, memory)) (label : Label Msg Unit) :
    InsertProgress start msg (call ++ [label]) pc ∧
      (pc.Unreserved → (s.senders ()).Unreserved ∧ memory = s.memory) := by
  have hprogress := h.progress
  have hpassed : Passed start (call ++ [label]) s := ⟨call, List.prefix_append .., h.run⟩
  cases hpc : s.senders () with
  | loadReserved current =>
    rw [hpc] at hadvance hprogress
    obtain rfl : current = msg := hprogress
    simp only [SenderPc.advance] at hadvance
    split_ifs at hadvance with hfull <;> obtain ⟨rfl, rfl⟩ := Prod.mk.inj (Option.some.inj hadvance)
    · have hnonneg := h.counts.reserved_nonneg
      have hle := h.counts.reserved_le
      have hsize : toSize s.memory.reservedSize = s.memory.reservedSize :=
        Int.emod_eq_of_lt hnonneg (by omega)
      rw [hsize] at hfull
      exact ⟨⟨rfl, s, hpassed, hpc, .inl (le_antisymm hle hfull)⟩, fun _ ↦ ⟨trivial, rfl⟩⟩
    · exact ⟨⟨rfl, s, hpassed, hpc, rfl⟩, fun _ ↦ ⟨trivial, rfl⟩⟩
  | exchange current oldSize =>
    rw [hpc] at hadvance hprogress
    obtain ⟨rfl, loaded, hloaded, hloadedPc, rfl⟩ := hprogress
    simp only [SenderPc.advance] at hadvance
    split_ifs at hadvance with hsame <;> obtain ⟨rfl, rfl⟩ := Prod.mk.inj (Option.some.inj hadvance)
    · exact ⟨trivial, False.elim⟩
    · exact ⟨⟨rfl, loaded, hloaded.concat label, hloadedPc, .inr ⟨s, hpassed, hpc, hsame⟩⟩,
        fun _ ↦ ⟨trivial, rfl⟩⟩
  | addWriteLoc | store | addReady =>
    rw [hpc] at hadvance
    obtain ⟨rfl, rfl⟩ := Prod.mk.inj (Option.some.inj hadvance)
    exact ⟨trivial, False.elim⟩
  | idle | done =>
    rw [hpc] at hadvance
    cases hadvance

theorem InsertCall.step (h : InsertCall start msg call s) (hcalloc : capacity * 8 < 2 ^ 64)
    (hinserting : Inserting s label) (hcounts : Counts next) (hstep : Step s label next) :
    InsertCall start msg (call ++ [label]) next := by
  have hrun := h.run.step hinserting hstep
  have hreceiver : label.ByReceiver → next.senders = s.senders →
      InsertCall start msg (call ++ [label]) next := by
    intro hlabel hsame
    refine ⟨hrun, hcounts, ?_, ?_⟩
    · rw [hsame]
      exact h.progress.concat label
    · rw [hsame]
      exact fun hunreserved ↦ (h.leaves hunreserved).step (absurd hlabel) hstep
  cases hstep with
  | insert sender msg hidle =>
    have hprogress := h.progress
    rw [hidle] at hprogress
    exact hprogress.elim
  | @senderStep sender pc memory hadvance =>
    obtain ⟨hprogress, hleaves⟩ := h.advance hcalloc hadvance (.senderStep sender _)
    refine ⟨hrun, hcounts, ?_, ?_⟩
    · dsimp only
      rw [Function.update_self]
      exact hprogress
    · dsimp only
      rw [Function.update_self]
      intro hunreserved
      obtain ⟨hbefore, hmemory⟩ := hleaves hunreserved
      refine (h.leaves hbefore).step (fun _ after hafter ↦ ?_) (.senderStep hadvance)
      cases hafter with
      | senderStep hadvance' =>
        rw [hadvance] at hadvance'
        rw [← (Prod.mk.inj (Option.some.inj hadvance')).2]
        exact hmemory
  | insertFinish hdone => exact absurd rfl (hinserting.2 _ _)
  | remove hidle => exact hreceiver trivial rfl
  | receiverStep hadvance => exact hreceiver trivial rfl
  | removeFinish hdone => exact hreceiver trivial rfl

/-- The counters while a call is in progress. -/
theorem counts_of_call (hcalloc : capacity * 8 < 2 ^ 64)
    (hrun : (system Msg Unit capacity).Run Unwrapped labels s) (hunwrapped : Unwrapped s label)
    (hcall : Step s label start) {allowed : State Msg Unit capacity → Label Msg Unit → Prop}
    (hallowed : ∀ s label, allowed s label → Unwrapped s label)
    (hcallRun : ((system Msg Unit capacity).startedIn start).Run allowed call next) :
    Counts next :=
  (ordered_of_run hcalloc
    ((hrun.step hunwrapped hcall).append hcallRun hallowed)).delivered.represents.counts

theorem insertCall_of_run (hcalloc : capacity * 8 < 2 ^ 64)
    (hrun : (system Msg Unit capacity).Run Unwrapped labels s)
    (hcall : Step s (.insert () msg) start)
    (hcallRun : ((system Msg Unit capacity).startedIn start).Run Inserting call next) :
    InsertCall start msg call next := by
  have hcounts : ∀ {call next},
      ((system Msg Unit capacity).startedIn start).Run Inserting call next → Counts next :=
    fun hcallRun ↦ counts_of_call hcalloc hrun (show Unwrapped s (.insert () msg) from trivial)
      hcall (fun _ _ h ↦ h.1) hcallRun
  induction hcallRun with
  | @start state h =>
    obtain rfl : start = state := h.symm
    have hpc : start.senders () = .loadReserved msg := by
      cases hcall with
      | insert sender msg hidle => simp
    refine ⟨.start rfl, hcounts (.start rfl), ?_, fun _ ↦ .start rfl⟩
    rw [hpc]
    rfl
  | step hbefore hinserting hstep ih =>
    exact ih.step hcalloc hinserting (hcounts (hbefore.step hinserting hstep)) hstep

/-- The points of a receiver that has taken no message. -/
def ReceiverPc.Unclaimed : ReceiverPc Msg → Prop
  | .loadReady => True
  | .exchange _ => True
  | .done none => True
  | _ => False

/-- What holds while the receiver removes a message. -/
structure RemoveCall (start : State Msg Unit capacity) (call : List (Label Msg Unit))
    (s : State Msg Unit capacity) : Prop where
  busy : s.receiver ≠ .idle
  found : s.receiver ≠ .subReserved none
  leaves : s.receiver.Unclaimed →
    ((system Msg Unit capacity).startedIn start).Run (Leaves Label.ByReceiver) call s

/-- A step of the receiver itself. -/
theorem ReceiverPc.unclaimed_advance {pc pc' : ReceiverPc Msg} {m memory : Memory Msg capacity}
    (hfound : pc ≠ .subReserved none) (hadvance : pc.advance m = some (pc', memory)) :
    pc' ≠ .idle ∧ pc' ≠ .subReserved none ∧ (pc'.Unclaimed → pc.Unclaimed ∧ memory = m) := by
  cases pc with
  | loadReady =>
    simp only [advance] at hadvance
    split_ifs at hadvance <;> obtain ⟨rfl, rfl⟩ := Prod.mk.inj (Option.some.inj hadvance) <;>
      exact ⟨by simp, by simp, fun _ ↦ ⟨trivial, rfl⟩⟩
  | exchange oldSize =>
    simp only [advance] at hadvance
    split_ifs at hadvance <;> obtain ⟨rfl, rfl⟩ := Prod.mk.inj (Option.some.inj hadvance)
    · exact ⟨by simp, by simp, False.elim⟩
    · exact ⟨by simp, by simp, fun _ ↦ ⟨trivial, rfl⟩⟩
  | check result =>
    cases result <;> obtain ⟨rfl, rfl⟩ := Prod.mk.inj (Option.some.inj hadvance) <;>
      exact ⟨by simp, by simp, False.elim⟩
  | subReserved result =>
    cases result with
    | none => exact absurd rfl hfound
    | some msg =>
      obtain ⟨rfl, rfl⟩ := Prod.mk.inj (Option.some.inj hadvance)
      exact ⟨by simp, by simp, False.elim⟩
  | addStart | read | clear =>
    obtain ⟨rfl, rfl⟩ := Prod.mk.inj (Option.some.inj hadvance)
    exact ⟨by simp, by simp, False.elim⟩
  | idle | done | failed => cases hadvance

theorem RemoveCall.step (h : RemoveCall start call s) (hremoving : Removing s label)
    (hstep : Step s label next) : RemoveCall start (call ++ [label]) next := by
  have hsender : ¬ label.ByReceiver → next.receiver = s.receiver →
      RemoveCall start (call ++ [label]) next := by
    intro hlabel hsame
    refine ⟨hsame ▸ h.busy, hsame ▸ h.found, ?_⟩
    rw [hsame]
    exact fun hunclaimed ↦ (h.leaves hunclaimed).step (fun hours ↦ absurd hours hlabel) hstep
  cases hstep with
  | insert sender msg hidle => exact hsender id rfl
  | senderStep hadvance => exact hsender id rfl
  | insertFinish hdone => exact hsender id rfl
  | remove hidle => exact absurd hidle h.busy
  | @receiverStep pc memory hadvance =>
    obtain ⟨hbusy, hfound, hleaves⟩ := ReceiverPc.unclaimed_advance h.found hadvance
    refine ⟨hbusy, hfound, fun hunclaimed ↦ ?_⟩
    obtain ⟨hbefore, hmemory⟩ := hleaves hunclaimed
    refine (h.leaves hbefore).step (fun _ after hafter ↦ ?_) (.receiverStep hadvance)
    cases hafter with
    | receiverStep hadvance' =>
      rw [hadvance] at hadvance'
      rw [← (Prod.mk.inj (Option.some.inj hadvance')).2]
      exact hmemory
  | removeFinish hdone => exact absurd rfl (hremoving.2 _)

theorem removeCall_of_run (hcall : Step s .remove start)
    (hcallRun : ((system Msg Unit capacity).startedIn start).Run Removing call next) :
    RemoveCall start call next := by
  induction hcallRun with
  | @start state h =>
    obtain rfl : start = state := h.symm
    have hpc : start.receiver = .loadReady := by
      cases hcall
      rfl
    refine ⟨?_, ?_, fun _ ↦ .start rfl⟩ <;> rw [hpc] <;> exact nofun
  | step _ hremoving hstep ih => exact ih.step hremoving hstep

/-- **One sender and one receiver.** Assumes: `calloc` succeeds, and the sender does not store a
message in the slot of an unread one from before `write_loc` wrapped. The mailbox is a bounded
channel in every state. A call of `actor_insert_msg` that returns false has found the mailbox full
at its load, or `reserved_size` changed at its compare-exchange; and a call of either function that
returns false or `NULL` has left every counter and slot as it was. -/
theorem channel_of_run (hcalloc : capacity * 8 < 2 ^ 64)
    (hrun : (system Msg Unit capacity).Run Unwrapped labels s) :
    Channel labels s ∧
    (∀ msg start call next, Step s (.insert () msg) start →
      ((system Msg Unit capacity).startedIn start).Run Inserting call next →
      next.senders () = .done msg false →
      Refused start msg call ∧ ((system Msg Unit capacity).startedIn start).Run
        (Leaves fun label ↦ ¬ label.ByReceiver) call next) ∧
    ∀ start call next, Step s .remove start →
      ((system Msg Unit capacity).startedIn start).Run Removing call next →
      next.receiver = .done none →
      ((system Msg Unit capacity).startedIn start).Run (Leaves Label.ByReceiver) call next := by
  refine ⟨(ordered_of_run hcalloc hrun).channel, fun msg start call next hcall hcallRun hdone ↦ ?_,
    fun start call next hcall hcallRun hdone ↦ ?_⟩
  · have h := insertCall_of_run hcalloc hrun hcall hcallRun
    have hprogress := h.progress
    rw [hdone] at hprogress
    refine ⟨hprogress.2, h.leaves ?_⟩
    rw [hdone]
    trivial
  · refine (removeCall_of_run hcall hcallRun).leaves ?_
    rw [hdone]
    trivial

/-- With a capacity that divides `2 ^ 64`, as the default of 128 does, every run is so. -/
theorem run_unwrapped_of_dvd (hcalloc : capacity * 8 < 2 ^ 64) (hdvd : capacity ∣ 2 ^ 64)
    (hrun : (system Msg Unit capacity).Run (fun _ _ ↦ True) labels s) :
    (system Msg Unit capacity).Run Unwrapped labels s := by
  induction hrun with
  | start h => exact .start h
  | @step labels s next label _ _ hstep ih =>
    refine ih.step ?_ hstep
    cases label with
    | senderStep sender result =>
      exact (ordered_of_run hcalloc ih).delivered.represents.inTicketOrder_of_dvd hdvd result
    | _ => trivial

/-! ### A capacity that does not divide `2 ^ 64` -/

section Moves

variable {m memory : Memory Msg capacity} {pc pc' : SenderPc Msg}
  {receiver receiver' : ReceiverPc Msg}

/-- What a step makes of the only sender. -/
theorem run_sender {senders : Unit → SenderPc Msg}
    (hrun : (system Msg Unit capacity).Run (fun _ _ ↦ True) labels ⟨m, senders, receiver⟩)
    (hstep : Step ⟨m, senders, receiver⟩ label
      ⟨memory, Function.update senders () pc, receiver⟩) :
    (system Msg Unit capacity).Run (fun _ _ ↦ True) (labels ++ [label])
      ⟨memory, fun _ ↦ pc, receiver⟩ := by
  have hafter := hrun.step trivial hstep
  rwa [Function.update_eq_const_of_subsingleton () pc] at hafter

theorem run_senderStep
    (hrun : (system Msg Unit capacity).Run (fun _ _ ↦ True) labels ⟨m, fun _ ↦ pc, receiver⟩)
    (hadvance : pc.advance m = some (pc', memory)) :
    (system Msg Unit capacity).Run (fun _ _ ↦ True) (labels ++ [.senderStep () pc.draws])
      ⟨memory, fun _ ↦ pc', receiver⟩ :=
  run_sender hrun (.senderStep hadvance)

theorem run_receiverStep {senders : Unit → SenderPc Msg}
    (hrun : (system Msg Unit capacity).Run (fun _ _ ↦ True) labels ⟨m, senders, receiver⟩)
    (hadvance : receiver.advance m = some (receiver', memory)) :
    (system Msg Unit capacity).Run (fun _ _ ↦ True) (labels ++ [.receiverStep])
      ⟨memory, senders, receiver'⟩ :=
  hrun.step trivial (.receiverStep hadvance)

/-- While no call is in progress and there is space, a message can be inserted. -/
theorem exists_run_insert
    (hrun : (system Msg Unit capacity).Run (fun _ _ ↦ True) labels ⟨m, fun _ ↦ .idle, .idle⟩)
    (hspace : toSize m.reservedSize < capacity) (msg : Msg) :
    ∃ labels, (system Msg Unit capacity).Run (fun _ _ ↦ True) labels
      ⟨⟨Function.update m.mailbox (slot m.writeLoc) (some msg), m.start, m.writeLoc + 1,
        m.reservedSize + 1, m.readySize + 1⟩, fun _ ↦ .idle, .idle⟩ := by
  have hinsert := run_sender hrun (.insert () msg rfl)
  have hload := run_senderStep hinsert (if_neg (not_le.mpr hspace))
  have hexchange := run_senderStep hload (if_pos rfl)
  have hdraw := run_senderStep hexchange rfl
  have hstore := run_senderStep hdraw rfl
  have hcount := run_senderStep hstore rfl
  exact ⟨_, run_sender hcount (.insertFinish rfl)⟩

/-- While no call is in progress and a message is ready, the receiver comes to its assertion. -/
theorem exists_run_check
    (hrun : (system Msg Unit capacity).Run (fun _ _ ↦ True) labels ⟨m, fun _ ↦ .idle, .idle⟩)
    (hready : 0 < m.readySize) :
    ∃ labels, (system Msg Unit capacity).Run (fun _ _ ↦ True) labels
      ⟨⟨Function.update m.mailbox (slot m.start) none, m.start + 1, m.writeLoc,
        m.reservedSize, m.readySize - 1⟩, fun _ ↦ .idle, .check (m.mailbox (slot m.start))⟩ := by
  have hremove := hrun.step trivial (.remove rfl)
  have hload := run_receiverStep hremove (if_neg (not_le.mpr hready))
  have hexchange := run_receiverStep hload (if_pos rfl)
  have hdraw := run_receiverStep hexchange rfl
  have hread := run_receiverStep hdraw rfl
  exact ⟨_, run_receiverStep hread rfl⟩

/-- A message that is found is returned. -/
theorem exists_run_remove {msg : Msg}
    (hrun : (system Msg Unit capacity).Run (fun _ _ ↦ True) labels ⟨m, fun _ ↦ .idle, .idle⟩)
    (hready : 0 < m.readySize) (hmsg : m.mailbox (slot m.start) = some msg) :
    ∃ labels, (system Msg Unit capacity).Run (fun _ _ ↦ True) labels
      ⟨⟨Function.update m.mailbox (slot m.start) none, m.start + 1, m.writeLoc,
        m.reservedSize - 1, m.readySize - 1⟩, fun _ ↦ .idle, .idle⟩ := by
  obtain ⟨_, hcheck⟩ := exists_run_check hrun hready
  rw [hmsg] at hcheck
  have hfound := run_receiverStep hcheck rfl
  have hsub := run_receiverStep hfound rfl
  exact ⟨_, hsub.step trivial (.removeFinish rfl)⟩

end Moves

/-- An empty mailbox for three messages, in which a number of messages was inserted and removed. -/
def cycled (count : ℕ) : State ℕ Unit 3 :=
  ⟨⟨fun _ ↦ none, count, count, 0, 0⟩, fun _ ↦ .idle, .idle⟩

theorem exists_run_cycled (count : ℕ) :
    ∃ labels, (system ℕ Unit 3).Run (fun _ _ ↦ True) labels (cycled count) := by
  induction count with
  | zero => exact ⟨[], .start ⟨rfl, fun _ ↦ rfl, rfl⟩⟩
  | succ count ih =>
    obtain ⟨_, hrun⟩ := ih
    have hspace : toSize (cycled count).memory.reservedSize < (3 : ℕ) :=
      show toSize 0 < 3 by decide
    obtain ⟨_, hinsert⟩ := exists_run_insert hrun hspace 0
    have hready : (0 : ℤ) < (cycled count).memory.readySize + 1 := show (0 : ℤ) < 0 + 1 by decide
    obtain ⟨labels, hremove⟩ := exists_run_remove hinsert hready (Function.update_self ..)
    have hnone : Function.update (fun _ : Fin 3 ↦ (none : Option ℕ)) (slot count) none =
        fun _ ↦ none := Function.update_eq_self _ _
    rw [Function.update_idem] at hremove
    change (system ℕ Unit 3).Run _ labels
      ⟨⟨Function.update (fun _ ↦ none) (slot count) none, count + 1, count + 1, 0, 0⟩, _, _⟩
      at hremove
    rw [hnone] at hremove
    exact ⟨labels, hremove⟩

/-- Two messages are inserted, and one is removed. -/
theorem channel_of_run_insertRemove : ∃ labels s, (system ℕ Unit 2).Run Unwrapped labels s ∧
    Channel labels s ∧ s.memory.start = 1 ∧ s.memory.writeLoc = 2 ∧ s.memory.mailbox 0 = none ∧
      s.memory.mailbox 1 = some 8 := by
  have hstart : (system ℕ Unit 2).Run (fun _ _ ↦ True) [] ⟨actorInit, fun _ ↦ .idle, .idle⟩ :=
    .start ⟨rfl, fun _ ↦ rfl, rfl⟩
  obtain ⟨_, hfirst⟩ := exists_run_insert hstart (show toSize 0 < 2 by decide) 7
  obtain ⟨_, hsecond⟩ := exists_run_insert hfirst (show toSize (0 + 1) < 2 by decide) 8
  obtain ⟨labels, hremove⟩ := exists_run_remove hsecond (show (0 : ℤ) < 0 + 1 + 1 by decide)
    (show _ = some 7 by decide)
  have hrun := run_unwrapped_of_dvd (by decide) (by decide) hremove
  exact ⟨labels, _, hrun, (channel_of_run (by decide) hrun).1, rfl, rfl, rfl, rfl⟩

/-- After `2 ^ 64 - 1` messages the next two get the same slot, and the first one is lost. -/
theorem not_channel : ¬ ∀ (labels : List (Label ℕ Unit)) (s : State ℕ Unit 3),
    (system ℕ Unit 3).Run (fun _ _ ↦ True) labels s → Channel labels s := by
  intro h
  obtain ⟨_, hrun⟩ := exists_run_cycled (2 ^ 64 - 1)
  obtain ⟨_, hfirst⟩ := exists_run_insert hrun (show toSize 0 < 3 by decide) 7
  obtain ⟨_, hsecond⟩ := exists_run_insert hfirst (show toSize (0 + 1) < 3 by decide) 8
  obtain ⟨_, hremove⟩ := exists_run_remove hsecond (show (0 : ℤ) < 0 + 1 + 1 by decide)
    (show _ = some 8 by decide)
  obtain ⟨labels, hcheck⟩ := exists_run_check hremove (show (0 : ℤ) < 0 + 1 + 1 - 1 by decide)
  have hfailed := run_receiverStep hcheck (show ReceiverPc.advance _ (.check none) = _ from rfl)
  exact (h _ _ hfailed).asserted rfl

end Libseff.Actors.Mailbox
