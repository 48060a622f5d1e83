import Libseff.Actors.Mailbox
import Libseff.Foundation.TicketBuffer
import Libseff.Foundation.Totals

/-!
# Delivery of the messages of a mailbox

The space reserved is that of the senders who will draw a ticket and of the tickets that the
receiver has not released, so the tickets that are not cleared differ by less than the capacity
(`Represents.writeLoc_le`). The count of the ready messages bounds the tickets that the receiver
draws, but does not tell which messages are ready. While the receiver reads no slot before its
message is stored (`InTicketOrder`), it gets the messages in the order of their tickets.
-/

set_option autoImplicit false
set_option relaxedAutoImplicit false

namespace Libseff.Actors.Mailbox

open Foundation

variable {Msg Sender : Type*} {capacity : ℕ}

/-! ### Slots -/

/-- Two tickets less than the capacity apart have different slots, unless `write_loc` wraps between
them. -/
theorem slot_ne [NeZero capacity] {earlier later : ℕ} (hlt : earlier < later)
    (hwindow : later < earlier + capacity) (hwrap : later / 2 ^ 64 ≤ earlier / 2 ^ 64) :
    (slot earlier : Fin capacity) ≠ slot later := by
  intro hslot
  have hearlier := Nat.div_add_mod earlier (2 ^ 64)
  have hlater := Nat.div_add_mod later (2 ^ 64)
  have hquotient : later / 2 ^ 64 = earlier / 2 ^ 64 :=
    le_antisymm hwrap (Nat.div_le_div_right hlt.le)
  rw [hquotient] at hlater
  have hmod : earlier % 2 ^ 64 ≡ later % 2 ^ 64 [MOD capacity] := congrArg Fin.val hslot
  have hdvd : capacity ∣ later % 2 ^ 64 - earlier % 2 ^ 64 :=
    (Nat.modEq_iff_dvd' (by omega)).mp hmod
  have hle := Nat.le_of_dvd (by omega) hdvd
  omega

/-- A wrap of `write_loc` does not matter when the capacity divides `2 ^ 64`. -/
theorem slot_ne_of_dvd [NeZero capacity] (hdvd : capacity ∣ 2 ^ 64) {earlier later : ℕ}
    (hlt : earlier < later) (hwindow : later < earlier + capacity) :
    (slot earlier : Fin capacity) ≠ slot later := by
  intro hslot
  have hmod : earlier % 2 ^ 64 % capacity = later % 2 ^ 64 % capacity := congrArg Fin.val hslot
  rw [Nat.mod_mod_of_dvd _ hdvd, Nat.mod_mod_of_dvd _ hdvd] at hmod
  have hle := Nat.le_of_dvd (by omega) ((Nat.modEq_iff_dvd' hlt.le).mp hmod)
  omega

/-! ### What the actors hold -/

/-- A sender with reserved space and no ticket. -/
def SenderPc.reserving : SenderPc Msg → ℕ
  | .addWriteLoc _ => 1
  | _ => 0

/-- A sender with a ticket that has not counted its message as ready. -/
def SenderPc.publishing : SenderPc Msg → ℕ
  | .store _ _ => 1
  | .addReady _ _ => 1
  | _ => 0

/-- The message of a sender that has got a ticket, until its call returns. -/
def SenderPc.holding : SenderPc Msg → Multiset Msg
  | .store msg _ => {msg}
  | .addReady msg _ => {msg}
  | .done msg true => {msg}
  | _ => 0

/-- What a sender has found. -/
def SenderPc.At (capacity : ℕ) : SenderPc Msg → Prop
  | .exchange _ oldSize => oldSize < capacity
  | _ => True

/-- A ready message that the receiver has counted off, without a ticket for it. -/
def ReceiverPc.claimed : ReceiverPc Msg → ℕ
  | .addStart => 1
  | _ => 0

/-- A ticket of the receiver whose space is still reserved. -/
def ReceiverPc.unreleased : ReceiverPc Msg → ℕ
  | .read _ => 1
  | .clear _ _ => 1
  | .check _ => 1
  | .subReserved _ => 1
  | _ => 0

/-- A ticket of the receiver whose message is not returned. -/
def ReceiverPc.unreturned : ReceiverPc Msg → ℕ
  | .done (some _) => 1
  | pc => pc.unreleased

/-- The message of a ticket is not stored yet. -/
def State.Pending (s : State Msg Sender capacity) (ticket : ℕ) : Prop :=
  ∃ sender msg, s.senders sender = .store msg ticket

/-- What the receiver knows. -/
def ReceiverPc.At (s : State Msg Sender capacity) (sent : List Msg) : ReceiverPc Msg → Prop
  | .exchange oldSize => 0 < oldSize
  | .read ticket => s.memory.start = ticket + 1
  | .clear ticket result => s.memory.start = ticket + 1 ∧ ¬ s.Pending ticket ∧
      ∃ msg, sent[ticket]? = some msg ∧ result = some msg
  | .check result => 0 < s.memory.start ∧
      ∃ msg, sent[s.memory.start - 1]? = some msg ∧ result = some msg
  | .subReserved result => 0 < s.memory.start ∧
      ∃ msg, sent[s.memory.start - 1]? = some msg ∧ result = some msg
  | .done (some msg) => 0 < s.memory.start ∧ sent[s.memory.start - 1]? = some msg
  | .failed => False
  | _ => True

/-! ### Counters -/

variable [Fintype Sender]

/-- The counters of the mailbox. -/
structure Counts (s : State Msg Sender capacity) : Prop where
  reserved : s.memory.reservedSize + s.memory.start =
    total SenderPc.reserving s.senders + s.memory.writeLoc + s.receiver.unreleased
  reserved_le : s.memory.reservedSize ≤ capacity
  ready : s.memory.readySize + total SenderPc.publishing s.senders + s.memory.start +
    s.receiver.claimed = s.memory.writeLoc
  ready_nonneg : 0 ≤ s.memory.readySize
  senders : ∀ sender, (s.senders sender).At capacity

variable {s : State Msg Sender capacity} {sent : List Msg}

/-- The receiver draws a ticket only for a message that was counted as ready. -/
theorem Counts.start_le (h : Counts s) :
    s.memory.start + s.receiver.claimed + total SenderPc.publishing s.senders ≤
      s.memory.writeLoc := by
  have hready := h.ready
  have hnonneg := h.ready_nonneg
  omega

theorem Counts.reserved_nonneg (h : Counts s) : 0 ≤ s.memory.reservedSize := by
  have hreserved := h.reserved
  have hle := h.start_le
  omega

omit [Fintype Sender] in
/-- What the receiver knows lasts while it has drawn no other ticket, and no message gets lost or
pending again. -/
theorem ReceiverPc.At.mono {pc : ReceiverPc Msg} {s' : State Msg Sender capacity}
    {sent' : List Msg} (h : pc.At s sent) (hstart : s'.memory.start = s.memory.start)
    (hsent : ∀ (ticket : ℕ) (msg : Msg), sent[ticket]? = some msg → sent'[ticket]? = some msg)
    (hpending : ∀ ticket < sent.length, s'.Pending ticket → s.Pending ticket) :
    pc.At s' sent' := by
  cases pc with
  | exchange oldSize => exact h
  | read ticket => exact hstart.trans h
  | clear ticket result =>
    obtain ⟨hticket, hstored, msg, hmsg, hresult⟩ := h
    have hlt : ticket < sent.length := (List.getElem?_eq_some_iff.mp hmsg).1
    exact ⟨hstart.trans hticket, fun hp ↦ hstored (hpending ticket hlt hp), msg,
      hsent ticket msg hmsg, hresult⟩
  | check result =>
    obtain ⟨hpos, msg, hmsg, hresult⟩ := h
    refine ⟨by rwa [hstart], msg, ?_, hresult⟩
    rw [hstart]
    exact hsent _ msg hmsg
  | subReserved result =>
    obtain ⟨hpos, msg, hmsg, hresult⟩ := h
    refine ⟨by rwa [hstart], msg, ?_, hresult⟩
    rw [hstart]
    exact hsent _ msg hmsg
  | done result =>
    cases result with
    | none => trivial
    | some msg =>
      refine ⟨by rw [hstart]; exact h.1, ?_⟩
      rw [hstart]
      exact hsent _ msg h.2
  | failed => exact h
  | _ => trivial

/-- The counters after a step of a sender. -/
theorem Counts.moveSender [DecidableEq Sender] {sender : Sender} {pc : SenderPc Msg}
    {memory : Memory Msg capacity} (h : Counts s) (hat : pc.At capacity)
    (hreserved : memory.reservedSize + (s.senders sender).reserving + s.memory.writeLoc =
      s.memory.reservedSize + pc.reserving + memory.writeLoc)
    (hreserved_le : memory.reservedSize ≤ capacity)
    (hready : memory.readySize + pc.publishing + s.memory.writeLoc =
      s.memory.readySize + (s.senders sender).publishing + memory.writeLoc)
    (hready_nonneg : 0 ≤ memory.readySize) (hstart : memory.start = s.memory.start) :
    Counts { s with memory := memory, senders := Function.update s.senders sender pc } := by
  have htotalReserving := total_update SenderPc.reserving s.senders sender pc
  have htotalPublishing := total_update SenderPc.publishing s.senders sender pc
  have hreserved' := h.reserved
  have hready' := h.ready
  refine
    { reserved := ?_
      reserved_le := hreserved_le
      ready := ?_
      ready_nonneg := hready_nonneg
      senders := fun other ↦ ?_ }
  · dsimp only
    omega
  · dsimp only
    omega
  · by_cases heq : other = sender
    · subst heq
      simpa using hat
    · simpa [Function.update_of_ne heq] using h.senders other

variable [NeZero capacity]

/-- The mailbox after the given messages got their tickets. -/
structure Represents (s : State Msg Sender capacity) (sent : List Msg) : Prop where
  counts : Counts s
  length : sent.length = s.memory.writeLoc
  buffer : TicketBuffer slot s.memory.mailbox s.unread s.Pending sent
  storing : ∀ sender msg ticket, s.senders sender = .store msg ticket → sent[ticket]? = some msg
  unique : ∀ sender other msg msg' ticket, s.senders sender = .store msg ticket →
    s.senders other = .store msg' ticket → sender = other
  receiver : s.receiver.At s sent

/-! ### Senders -/

section Senders

variable [DecidableEq Sender] {sender : Sender} {pc : SenderPc Msg} {memory : Memory Msg capacity}

omit [NeZero capacity] [Fintype Sender] in
/-- A step from and to points without a store. -/
theorem storing_update (hold : ∀ msg ticket, s.senders sender ≠ .store msg ticket)
    (hnew : ∀ msg ticket, pc ≠ .store msg ticket) {other : Sender} {msg : Msg} {ticket : ℕ} :
    Function.update s.senders sender pc other = .store msg ticket ↔
      s.senders other = .store msg ticket := by
  by_cases heq : other = sender
  · subst heq
    rw [Function.update_self]
    exact ⟨fun h ↦ absurd h (hnew msg ticket), fun h ↦ absurd h (hold msg ticket)⟩
  · rw [Function.update_of_ne heq]

/-- A sender goes on without a change of the slots and tickets. -/
theorem Represents.moveSender (h : Represents s sent)
    (hold : ∀ msg ticket, s.senders sender ≠ .store msg ticket)
    (hnew : ∀ msg ticket, pc ≠ .store msg ticket)
    (hmailbox : memory.mailbox = s.memory.mailbox) (hstart : memory.start = s.memory.start)
    (hwriteLoc : memory.writeLoc = s.memory.writeLoc)
    (hcounts : Counts
      { s with memory := memory, senders := Function.update s.senders sender pc }) :
    Represents
      { s with memory := memory, senders := Function.update s.senders sender pc } sent := by
  have hpending : ∀ ticket, State.Pending
      { s with memory := memory, senders := Function.update s.senders sender pc } ticket ↔
        s.Pending ticket :=
    fun ticket ↦ exists_congr fun other ↦ exists_congr fun msg ↦ storing_update hold hnew
  have hunread : State.unread
      { s with memory := memory, senders := Function.update s.senders sender pc } = s.unread :=
    congrArg (· - s.receiver.uncleared) hstart
  refine
    { counts := hcounts
      length := h.length.trans hwriteLoc.symm
      buffer := ?_
      storing := fun other msg ticket hother ↦
        h.storing other msg ticket ((storing_update hold hnew).mp hother)
      unique := fun first second msg msg' ticket hfirst hsecond ↦
        h.unique first second msg msg' ticket ((storing_update hold hnew).mp hfirst)
          ((storing_update hold hnew).mp hsecond)
      receiver := h.receiver.mono hstart (fun _ _ ↦ id) fun ticket _ ↦ (hpending ticket).mp }
  rw [hunread]
  exact (hmailbox ▸ h.buffer).congr hpending

/-- A sender draws a ticket. -/
theorem Represents.draw (h : Represents s sent) {msg : Msg}
    (hpc : s.senders sender = .addWriteLoc msg) :
    Represents
      { s with
        memory := { s.memory with writeLoc := s.memory.writeLoc + 1 }
        senders := Function.update s.senders sender (.store msg s.memory.writeLoc) }
      (sent ++ [msg]) := by
  have hstoring : ∀ {other msg' ticket},
      Function.update s.senders sender (.store msg s.memory.writeLoc) other = .store msg' ticket →
        (other = sender ∧ msg' = msg ∧ ticket = sent.length) ∨
          s.senders other = .store msg' ticket := by
    intro other msg' ticket hother
    by_cases heq : other = sender
    · subst heq
      rw [Function.update_self, SenderPc.store.injEq] at hother
      exact .inl ⟨rfl, hother.1.symm, hother.2.symm.trans h.length.symm⟩
    · rw [Function.update_of_ne heq] at hother
      exact .inr hother
  have hlt : ∀ {other msg' ticket}, s.senders other = .store msg' ticket → ticket < sent.length :=
    fun {_ _ ticket} hother ↦ (h.buffer.bounds ticket ⟨_, _, hother⟩).2
  have hstart := h.counts.start_le
  have hunread : s.unread ≤ sent.length := by
    rw [h.length]
    exact (Nat.sub_le _ _).trans (by omega)
  refine
    { counts := h.counts.moveSender trivial (by rw [hpc]; simp [SenderPc.reserving]; ring)
        h.counts.reserved_le (by rw [hpc]; simp [SenderPc.publishing]; ring)
        h.counts.ready_nonneg rfl
      length := by rw [List.length_append, h.length]; rfl
      buffer := (h.buffer.draw hunread msg).congr fun ticket ↦ ⟨?_, ?_⟩
      storing := fun other msg' ticket hother ↦ ?_
      unique := fun first second msg' msg'' ticket hfirst hsecond ↦ ?_
      receiver := h.receiver.mono rfl (fun ticket msg' hmsg ↦ ?_) fun ticket hticket ↦ ?_ }
  · rintro ⟨other, msg', hother⟩
    rcases hstoring hother with ⟨-, -, rfl⟩ | hother
    · exact .inl rfl
    · exact .inr ⟨other, msg', hother⟩
  · rintro (rfl | ⟨other, msg', hother⟩)
    · exact ⟨sender, msg, by dsimp only; rw [Function.update_self, h.length]⟩
    · have hne : other ≠ sender := by
        rintro rfl
        rw [hpc] at hother
        exact absurd hother nofun
      exact ⟨other, msg', by dsimp only; rwa [Function.update_of_ne hne]⟩
  · rcases hstoring hother with ⟨-, rfl, rfl⟩ | hother
    · simp
    · rw [List.getElem?_append_left (hlt hother)]
      exact h.storing other msg' ticket hother
  · rcases hstoring hfirst with ⟨hone, -, hticket⟩ | holdFirst <;>
      rcases hstoring hsecond with ⟨htwo, -, hticket'⟩ | holdSecond
    · exact hone.trans htwo.symm
    · exact absurd (hlt holdSecond) (by omega)
    · exact absurd (hlt holdFirst) (by omega)
    · exact h.unique first second msg' msg'' ticket holdFirst holdSecond
  · rw [List.getElem?_append_left (List.getElem?_eq_some_iff.mp hmsg).1]
    exact hmsg
  · rintro ⟨other, msg', hother⟩
    rcases hstoring hother with ⟨-, -, rfl⟩ | hother
    · exact absurd hticket (lt_irrefl _)
    · exact ⟨other, msg', hother⟩

omit [DecidableEq Sender] in
/-- No more tickets than slots are drawn and not cleared. -/
theorem Represents.writeLoc_le (h : Represents s sent) :
    s.memory.writeLoc ≤ s.unread + capacity := by
  have hreserved := h.counts.reserved
  have hle := h.counts.reserved_le
  have huncleared : s.receiver.uncleared ≤ s.receiver.unreleased := by
    cases s.receiver <;> simp [ReceiverPc.uncleared, ReceiverPc.unreleased]
  unfold State.unread
  omega

omit [DecidableEq Sender] in
/-- The slot of a sender's ticket is not that of an earlier message that is not cleared. -/
theorem Represents.slot_ne (h : Represents s sent) {msg : Msg} {ticket : ℕ}
    (hpc : s.senders sender = .store msg ticket)
    (horder : InTicketOrder s (.senderStep sender none)) :
    ∀ earlier < ticket, s.unread ≤ earlier → (slot earlier : Fin capacity) ≠ slot ticket := by
  intro earlier hlt hunread
  by_cases hwrap : earlier / 2 ^ 64 < ticket / 2 ^ 64
  · exact horder msg ticket hpc earlier hunread hwrap
  · have hbound := (h.buffer.bounds ticket ⟨sender, msg, hpc⟩).2
    have hlength := h.length
    have hwindow := h.writeLoc_le
    exact Mailbox.slot_ne hlt (by omega) (not_lt.mp hwrap)

omit [DecidableEq Sender] in
/-- A step of a sender is in ticket order when the capacity divides `2 ^ 64`, as the default of 128
does. -/
theorem Represents.inTicketOrder_of_dvd (h : Represents s sent) (hdvd : capacity ∣ 2 ^ 64)
    (result : Option Msg) : InTicketOrder s (.senderStep sender result) := by
  intro msg ticket hpc earlier hunread hwrap
  have hlt : earlier < ticket := lt_of_not_ge fun hge ↦ hwrap.not_ge (Nat.div_le_div_right hge)
  have hbound := (h.buffer.bounds ticket ⟨sender, msg, hpc⟩).2
  have hlength := h.length
  have hwindow := h.writeLoc_le
  exact slot_ne_of_dvd hdvd hlt (by omega)

omit [DecidableEq Sender] in
/-- A sender finds the slot of its ticket empty. -/
theorem Represents.mailbox_eq_none (h : Represents s sent) {msg : Msg} {ticket : ℕ}
    (hpc : s.senders sender = .store msg ticket)
    (horder : InTicketOrder s (.senderStep sender none)) :
    s.memory.mailbox (slot ticket) = none :=
  h.buffer.contents_eq_none ⟨sender, msg, hpc⟩ (h.slot_ne hpc horder)

/-- A sender stores its message. -/
theorem Represents.store (h : Represents s sent) {msg : Msg} {ticket : ℕ}
    (hpc : s.senders sender = .store msg ticket)
    (horder : InTicketOrder s (.senderStep sender none)) :
    Represents
      { s with
        memory :=
          { s.memory with mailbox := Function.update s.memory.mailbox (slot ticket) (some msg) }
        senders := Function.update s.senders sender (.addReady msg ticket) } sent := by
  have hstoring : ∀ {other msg' ticket'},
      Function.update s.senders sender (.addReady msg ticket) other = .store msg' ticket' ↔
        s.senders other = .store msg' ticket' ∧ ticket' ≠ ticket := by
    intro other msg' ticket'
    by_cases heq : other = sender
    · subst heq
      rw [Function.update_self, hpc, SenderPc.store.injEq]
      exact ⟨nofun, fun hboth ↦ absurd hboth.1.2.symm hboth.2⟩
    · rw [Function.update_of_ne heq]
      refine ⟨fun hother ↦ ⟨hother, ?_⟩, And.left⟩
      rintro rfl
      exact heq (h.unique other sender msg' msg _ hother hpc)
  have hbuffer := h.buffer.store ⟨sender, msg, hpc⟩ (h.storing sender msg ticket hpc)
    (h.slot_ne hpc horder)
  refine
    { counts := h.counts.moveSender trivial (by rw [hpc]; simp [SenderPc.reserving])
        h.counts.reserved_le (by rw [hpc]; simp [SenderPc.publishing])
        h.counts.ready_nonneg rfl
      length := h.length
      buffer := hbuffer.congr fun ticket' ↦ ⟨?_, ?_⟩
      storing := fun other msg' ticket' hother ↦
        h.storing other msg' ticket' (hstoring.mp hother).1
      unique := fun first second msg' msg'' ticket' hfirst hsecond ↦
        h.unique first second msg' msg'' ticket' (hstoring.mp hfirst).1 (hstoring.mp hsecond).1
      receiver := h.receiver.mono rfl (fun _ _ ↦ id) fun ticket' _ ↦ ?_ }
  · rintro ⟨other, msg', hother⟩
    obtain ⟨hother, hne⟩ := hstoring.mp hother
    exact ⟨⟨other, msg', hother⟩, hne⟩
  · rintro ⟨⟨other, msg', hother⟩, hne⟩
    exact ⟨other, msg', hstoring.mpr ⟨hother, hne⟩⟩
  · rintro ⟨other, msg', hother⟩
    exact ⟨other, msg', (hstoring.mp hother).1⟩

/-- A step of a sender. -/
theorem Represents.senderStep (h : Represents s sent) (hcalloc : capacity * 8 < 2 ^ 64)
    (horder : InTicketOrder s (.senderStep sender none))
    (hadvance : (s.senders sender).advance s.memory = some (pc, memory)) :
    Represents { s with memory := memory, senders := Function.update s.senders sender pc }
        (sent ++ (s.senders sender).draws.toList) ∧
      pc.holding = (s.senders sender).holding + ((s.senders sender).draws.toList : Multiset Msg) ∧
      memory.start = s.memory.start := by
  have hkeep : ∀ {pc' : SenderPc Msg}, pc'.At capacity →
      (∀ msg ticket, s.senders sender ≠ .store msg ticket) →
      (∀ msg ticket, pc' ≠ .store msg ticket) →
      (s.senders sender).reserving = pc'.reserving →
      (s.senders sender).publishing = pc'.publishing →
        Represents { s with senders := Function.update s.senders sender pc' } sent :=
    fun hat hold hnew hreserving hpublishing ↦ h.moveSender hold hnew rfl rfl rfl
      (h.counts.moveSender hat (by rw [hreserving]) h.counts.reserved_le (by rw [hpublishing])
        h.counts.ready_nonneg rfl)
  cases hpc : s.senders sender with
  | idle =>
    rw [hpc] at hadvance
    exact absurd hadvance nofun
  | loadReserved msg =>
    rw [hpc] at hadvance hkeep
    change Represents _ (sent ++ []) ∧ _
    rw [List.append_nil]
    simp only [SenderPc.advance] at hadvance
    split_ifs at hadvance with hfull <;>
      obtain ⟨rfl, rfl⟩ := Prod.mk.inj (Option.some.inj hadvance)
    · exact ⟨hkeep trivial nofun nofun rfl rfl, rfl, rfl⟩
    · refine ⟨hkeep ?_ nofun nofun rfl rfl, rfl, rfl⟩
      have hnonneg := h.counts.reserved_nonneg
      have hle := h.counts.reserved_le
      have hsize : toSize s.memory.reservedSize = s.memory.reservedSize :=
        Int.emod_eq_of_lt hnonneg (by omega)
      rw [hsize] at hfull
      exact not_le.mp hfull
  | exchange msg oldSize =>
    have hat := h.counts.senders sender
    rw [hpc] at hadvance hkeep hat
    change Represents _ (sent ++ []) ∧ _
    rw [List.append_nil]
    simp only [SenderPc.advance] at hadvance
    split_ifs at hadvance with hsame <;>
      obtain ⟨rfl, rfl⟩ := Prod.mk.inj (Option.some.inj hadvance)
    · refine ⟨h.moveSender (by rw [hpc]; exact nofun) nofun rfl rfl rfl
        (h.counts.moveSender trivial ?_ hat ?_ h.counts.ready_nonneg rfl), rfl, rfl⟩
      · rw [hpc, hsame]
        simp [SenderPc.reserving]
      · rw [hpc]
        rfl
    · exact ⟨hkeep trivial nofun nofun rfl rfl, rfl, rfl⟩
  | addWriteLoc msg =>
    rw [hpc] at hadvance
    obtain ⟨rfl, rfl⟩ := Prod.mk.inj (Option.some.inj hadvance)
    exact ⟨h.draw hpc, rfl, rfl⟩
  | store msg ticket =>
    rw [hpc] at hadvance
    change Represents _ (sent ++ []) ∧ _
    rw [List.append_nil]
    obtain ⟨rfl, rfl⟩ := Prod.mk.inj (Option.some.inj hadvance)
    exact ⟨h.store hpc horder, rfl, rfl⟩
  | addReady msg ticket =>
    rw [hpc] at hadvance
    change Represents _ (sent ++ []) ∧ _
    rw [List.append_nil]
    obtain ⟨rfl, rfl⟩ := Prod.mk.inj (Option.some.inj hadvance)
    have hnonneg := h.counts.ready_nonneg
    refine ⟨h.moveSender (by rw [hpc]; exact nofun) nofun rfl rfl rfl
      (h.counts.moveSender trivial ?_ h.counts.reserved_le ?_ (by dsimp only; omega) rfl), rfl, rfl⟩
    · rw [hpc]
      rfl
    · rw [hpc]
      simp [SenderPc.publishing]
  | done msg result =>
    rw [hpc] at hadvance
    exact absurd hadvance nofun

end Senders

/-! ### The receiver -/

section Receiver

variable {pc : ReceiverPc Msg} {memory : Memory Msg capacity}

/-- The receiver goes on. -/
theorem Represents.moveReceiver (h : Represents s sent)
    (hwriteLoc : memory.writeLoc = s.memory.writeLoc)
    (hbuffer : TicketBuffer slot memory.mailbox (memory.start - pc.uncleared) s.Pending sent)
    (hreserved : memory.reservedSize + memory.start + s.receiver.unreleased =
      s.memory.reservedSize + s.memory.start + pc.unreleased)
    (hreserved_le : memory.reservedSize ≤ capacity)
    (hready : memory.readySize + memory.start + pc.claimed =
      s.memory.readySize + s.memory.start + s.receiver.claimed)
    (hready_nonneg : 0 ≤ memory.readySize)
    (hat : pc.At { s with memory := memory, receiver := pc } sent) :
    Represents { s with memory := memory, receiver := pc } sent := by
  have hreserved' := h.counts.reserved
  have hready' := h.counts.ready
  exact
    { counts :=
        { reserved := by dsimp only; omega
          reserved_le := hreserved_le
          ready := by dsimp only; omega
          ready_nonneg := hready_nonneg
          senders := h.counts.senders }
      length := h.length.trans hwriteLoc.symm
      buffer := hbuffer
      storing := h.storing
      unique := h.unique
      receiver := hat }

/-- The receiver goes on without a change of the memory. -/
theorem Represents.moveReceiver_same (h : Represents s sent)
    (huncleared : pc.uncleared = s.receiver.uncleared)
    (hunreleased : pc.unreleased = s.receiver.unreleased)
    (hclaimed : pc.claimed = s.receiver.claimed) (hat : pc.At s sent) :
    Represents { s with receiver := pc } sent := by
  have hbuffer : TicketBuffer slot s.memory.mailbox (s.memory.start - pc.uncleared) s.Pending
      sent := by
    rw [huncleared]
    exact h.buffer
  exact h.moveReceiver rfl hbuffer (by rw [hunreleased]) h.counts.reserved_le (by rw [hclaimed])
    h.counts.ready_nonneg (hat.mono rfl (fun _ _ ↦ id) fun _ _ ↦ id)

/-- The receiver finds a message in the slot of its ticket. -/
theorem Represents.mailbox_eq_some (h : Represents s sent) {ticket : ℕ}
    (hpc : s.receiver = .read ticket) (horder : InTicketOrder s .receiverStep) :
    ¬ s.Pending ticket ∧
      ∃ msg, sent[ticket]? = some msg ∧ s.memory.mailbox (slot ticket) = some msg := by
  have hat := h.receiver
  rw [hpc] at hat
  change s.memory.start = ticket + 1 at hat
  have hstored : ¬ s.Pending ticket := fun ⟨sender, msg, hsender⟩ ↦
    horder ticket hpc sender msg hsender
  have hbuffer := h.buffer
  have hunread : s.unread = ticket := by
    unfold State.unread
    rw [hpc, hat]
    rfl
  have hle := h.counts.start_le
  rw [hunread] at hbuffer
  exact ⟨hstored, hbuffer.contents_first (by rw [h.length]; omega) hstored⟩

/-- A step of the receiver. -/
theorem Represents.receiverStep (h : Represents s sent) (horder : InTicketOrder s .receiverStep)
    (hadvance : s.receiver.advance s.memory = some (pc, memory)) :
    Represents { s with memory := memory, receiver := pc } sent ∧
      memory.start + s.receiver.unreturned = s.memory.start + pc.unreturned := by
  have hat := h.receiver
  have hbuffer := h.buffer
  have hle := h.counts.reserved_le
  have hnonneg := h.counts.ready_nonneg
  have hstay : ∀ {pc' : ReceiverPc Msg}, pc'.uncleared = s.receiver.uncleared →
      pc'.unreleased = s.receiver.unreleased → pc'.claimed = s.receiver.claimed →
      pc'.At s sent → Represents { s with receiver := pc' } sent :=
    h.moveReceiver_same
  unfold State.unread at hbuffer
  cases hpc : s.receiver with
  | loadReady =>
    rw [hpc] at hadvance hstay
    simp only [ReceiverPc.advance] at hadvance
    split_ifs at hadvance with hempty <;>
      obtain ⟨rfl, rfl⟩ := Prod.mk.inj (Option.some.inj hadvance)
    · exact ⟨hstay rfl rfl rfl trivial, rfl⟩
    · exact ⟨hstay rfl rfl rfl (not_le.mp hempty), rfl⟩
  | exchange oldSize =>
    rw [hpc] at hadvance hat hbuffer hstay
    simp only [ReceiverPc.advance] at hadvance
    split_ifs at hadvance with hsame <;>
      obtain ⟨rfl, rfl⟩ := Prod.mk.inj (Option.some.inj hadvance)
    · change 0 < oldSize at hat
      refine ⟨h.moveReceiver rfl hbuffer (by rw [hpc]; rfl) hle ?_ (by dsimp only; omega) trivial,
        rfl⟩
      rw [hpc, hsame]
      simp [ReceiverPc.claimed]
      ring
    · exact ⟨hstay rfl rfl rfl trivial, rfl⟩
  | addStart =>
    rw [hpc] at hadvance hbuffer
    obtain ⟨rfl, rfl⟩ := Prod.mk.inj (Option.some.inj hadvance)
    refine ⟨h.moveReceiver rfl hbuffer ?_ hle ?_ hnonneg rfl, rfl⟩
    · rw [hpc]
      simp [ReceiverPc.unreleased]
      ring
    · rw [hpc]
      simp [ReceiverPc.claimed]
      ring
  | read ticket =>
    obtain ⟨hstored, msg, hmsg, hread⟩ := h.mailbox_eq_some hpc horder
    rw [hpc] at hadvance hat hstay
    obtain ⟨rfl, rfl⟩ := Prod.mk.inj (Option.some.inj hadvance)
    exact ⟨hstay rfl rfl rfl ⟨hat, hstored, msg, hmsg, hread⟩, rfl⟩
  | clear ticket result =>
    rw [hpc] at hadvance hat hbuffer
    obtain ⟨hstart, hstored, msg, hmsg, rfl⟩ := hat
    obtain ⟨rfl, rfl⟩ := Prod.mk.inj (Option.some.inj hadvance)
    have hfirst : s.memory.start - (ReceiverPc.clear ticket (some msg)).uncleared = ticket := by
      rw [hstart]
      rfl
    rw [hfirst] at hbuffer
    have hclear := hbuffer.clear hstored
    rw [← hstart] at hclear
    refine ⟨h.moveReceiver rfl hclear (by rw [hpc]; rfl) hle (by rw [hpc]; rfl) hnonneg
      ⟨by dsimp only; omega, msg, ?_, rfl⟩, rfl⟩
    dsimp only
    rw [hstart]
    exact hmsg
  | check result =>
    rw [hpc] at hadvance hat hstay
    obtain ⟨hpos, msg, hmsg, rfl⟩ := hat
    obtain ⟨rfl, rfl⟩ := Prod.mk.inj (Option.some.inj hadvance)
    exact ⟨hstay rfl rfl rfl ⟨hpos, msg, hmsg, rfl⟩, rfl⟩
  | subReserved result =>
    rw [hpc] at hadvance hat hbuffer
    obtain ⟨hpos, msg, hmsg, rfl⟩ := hat
    obtain ⟨rfl, rfl⟩ := Prod.mk.inj (Option.some.inj hadvance)
    refine ⟨h.moveReceiver rfl hbuffer ?_ (by dsimp only; omega) (by rw [hpc]; rfl) hnonneg
      ⟨hpos, hmsg⟩, rfl⟩
    rw [hpc]
    simp [ReceiverPc.unreleased]
    ring
  | _ =>
    rw [hpc] at hadvance
    exact absurd hadvance nofun

end Receiver

/-! ### Runs -/

section Labels

omit [Fintype Sender]

theorem drawn_concat (labels : List (Label Msg Sender)) (label : Label Msg Sender) :
    drawn (labels ++ [label]) = drawn labels ++ drawn [label] :=
  List.filterMap_append

theorem accepted_append (labels more : List (Label Msg Sender)) :
    accepted (labels ++ more) = accepted labels ++ accepted more :=
  List.filterMap_append

theorem returned_concat (labels : List (Label Msg Sender)) (label : Label Msg Sender) :
    returned (labels ++ [label]) = returned labels ++ returned [label] :=
  List.filterMap_append

theorem drawn_senderStep (sender : Sender) (result : Option Msg) :
    drawn [.senderStep sender result] = result.toList := by
  cases result <;> rfl

theorem returned_removeFinish (result : Option Msg) :
    returned [(.removeFinish result : Label Msg Sender)] = result.toList := by
  cases result <;> rfl

end Labels

/-- Where the messages of a run are. -/
structure Delivered (labels : List (Label Msg Sender)) (s : State Msg Sender capacity) : Prop where
  represents : Represents s (drawn labels)
  accepted_eq : (drawn labels : Multiset Msg) =
    accepted labels + total SenderPc.holding s.senders
  returned_eq : returned labels =
    (drawn labels).take (s.memory.start - s.receiver.unreturned)

/-- A receiver that has not returned the message of its ticket has drawn one. -/
theorem Represents.unreturned_le (h : Represents s sent) :
    s.receiver.unreturned ≤ s.memory.start := by
  have hat := h.receiver
  cases hpc : s.receiver with
  | read ticket =>
    rw [hpc] at hat
    exact (Nat.le_add_left 1 ticket).trans_eq hat.symm
  | clear ticket result =>
    rw [hpc] at hat
    exact (Nat.le_add_left 1 ticket).trans_eq hat.1.symm
  | check result =>
    rw [hpc] at hat
    exact hat.1
  | subReserved result =>
    rw [hpc] at hat
    exact hat.1
  | done result =>
    rw [hpc] at hat
    cases result with
    | none => exact Nat.zero_le _
    | some msg => exact hat.1
  | _ => exact Nat.zero_le _

variable {next : State Msg Sender capacity} {labels : List (Label Msg Sender)}
  {label : Label Msg Sender}

/-- A step in which the receiver returns no message. -/
theorem Delivered.take_eq (h : Delivered labels s) (more : List Msg)
    (hsame : next.memory.start + s.receiver.unreturned =
      s.memory.start + next.receiver.unreturned) :
    returned labels ++ [] =
      (drawn labels ++ more).take (next.memory.start - next.receiver.unreturned) := by
  have hbound := h.represents.unreturned_le
  have hstart := h.represents.counts.start_le
  have hlength := h.represents.length
  have hcount : next.memory.start - next.receiver.unreturned =
      s.memory.start - s.receiver.unreturned := by omega
  rw [List.append_nil, hcount, List.take_append_of_le_length (by omega)]
  exact h.returned_eq

/-- What a step has to keep. -/
theorem Delivered.concat (h : Delivered labels s)
    (hrepresents : Represents next (drawn labels ++ drawn [label]))
    (hholding : (accepted [label] : Multiset Msg) + total SenderPc.holding next.senders =
      total SenderPc.holding s.senders + drawn [label])
    (hreturned : returned labels ++ returned [label] =
      (drawn labels ++ drawn [label]).take (next.memory.start - next.receiver.unreturned)) :
    Delivered (labels ++ [label]) next where
  represents := by rwa [drawn_concat]
  accepted_eq := by
    rw [drawn_concat, accepted_append, ← Multiset.coe_add, ← Multiset.coe_add, h.accepted_eq,
      add_assoc, add_assoc, hholding]
  returned_eq := by rw [drawn_concat, returned_concat, hreturned]

variable [DecidableEq Sender]

/-- Every step keeps account of the messages. -/
theorem Delivered.step (h : Delivered labels s) (hcalloc : capacity * 8 < 2 ^ 64)
    (horder : InTicketOrder s label) (hstep : Step s label next) :
    Delivered (labels ++ [label]) next := by
  have hnonneg := h.represents.counts.ready_nonneg
  have hle := h.represents.counts.reserved_le
  have hdrawn : ∀ {next : State Msg Sender capacity}, Represents next (drawn labels) →
      Represents next (drawn labels ++ []) := by
    intro next hrepresents
    rwa [List.append_nil]
  cases hstep with
  | insert sender msg hidle =>
    have hholding := total_update SenderPc.holding s.senders sender (.loadReserved msg)
    have hcounts : Counts
        { s with senders := Function.update s.senders sender (.loadReserved msg) } :=
      h.represents.counts.moveSender trivial (by rw [hidle]; rfl) hle (by rw [hidle]; rfl) hnonneg
        rfl
    rw [hidle] at hholding
    exact h.concat
      (hdrawn (h.represents.moveSender (by rw [hidle]; exact nofun) nofun rfl rfl rfl hcounts))
      ((zero_add _).trans ((add_zero _).symm.trans hholding)) (h.take_eq [] rfl)
  | @senderStep sender pc memory hadvance =>
    obtain ⟨hrepresents, hpc, hstart⟩ := h.represents.senderStep hcalloc horder hadvance
    have hholding := total_update SenderPc.holding s.senders sender pc
    rw [hpc, add_comm (SenderPc.holding (s.senders sender)), ← add_assoc] at hholding
    refine h.concat ?_ ?_ (h.take_eq _ ?_)
    · rw [drawn_senderStep]
      exact hrepresents
    · rw [drawn_senderStep]
      exact (zero_add _).trans (add_right_cancel hholding)
    · dsimp only
      rw [hstart]
  | @insertFinish sender msg result hdone =>
    have hholding := total_update SenderPc.holding s.senders sender .idle
    have hcounts : Counts { s with senders := Function.update s.senders sender .idle } :=
      h.represents.counts.moveSender trivial (by rw [hdone]; rfl) hle (by rw [hdone]; rfl) hnonneg
        rfl
    rw [hdone] at hholding
    refine h.concat
      (hdrawn (h.represents.moveSender (by rw [hdone]; exact nofun) nofun rfl rfl rfl hcounts))
      ?_ (h.take_eq [] rfl)
    cases result with
    | false => exact (zero_add _).trans ((add_zero _).symm.trans hholding)
    | true => exact (add_comm _ _).trans hholding
  | remove hidle =>
    have hrepresents : Represents { s with receiver := .loadReady } (drawn labels) :=
      h.represents.moveReceiver_same (by rw [hidle]; rfl) (by rw [hidle]; rfl) (by rw [hidle]; rfl)
        trivial
    exact h.concat (hdrawn hrepresents) ((zero_add _).trans (add_zero _).symm)
      (h.take_eq [] (by rw [hidle]; rfl))
  | receiverStep hadvance =>
    obtain ⟨hrepresents, hreturned⟩ := h.represents.receiverStep horder hadvance
    exact h.concat (hdrawn hrepresents) ((zero_add _).trans (add_zero _).symm)
      (h.take_eq [] hreturned)
  | @removeFinish result hdone =>
    have hat := h.represents.receiver
    have hrepresents : Represents { s with receiver := .idle } (drawn labels) :=
      h.represents.moveReceiver_same (by rw [hdone]; rfl) (by rw [hdone]; cases result <;> rfl)
        (by rw [hdone]; rfl) trivial
    refine h.concat (hdrawn hrepresents) ((zero_add _).trans (add_zero _).symm) ?_
    rw [hdone] at hat
    cases result with
    | none => exact h.take_eq [] (by rw [hdone]; rfl)
    | some msg =>
      obtain ⟨hpos, hmsg⟩ := hat
      obtain ⟨count, hcount⟩ : ∃ count, s.memory.start = count + 1 :=
        ⟨s.memory.start - 1, by omega⟩
      have hreturned := h.returned_eq
      rw [hcount, Nat.add_sub_cancel] at hmsg
      rw [hdone, hcount] at hreturned
      change returned labels = (drawn labels).take count at hreturned
      rw [hreturned, returned_removeFinish]
      change _ = (drawn labels ++ []).take s.memory.start
      rw [List.append_nil, hcount, List.take_add_one, hmsg]

/-- A new mailbox is empty. -/
theorem Delivered.init (h : (system Msg Sender capacity).initial s) : Delivered [] s := by
  obtain ⟨hmemory, hsenders, hreceiver⟩ := h
  have hreserving : total SenderPc.reserving s.senders = 0 :=
    total_eq_zero fun sender ↦ by rw [hsenders]; rfl
  have hpublishing : total SenderPc.publishing s.senders = 0 :=
    total_eq_zero fun sender ↦ by rw [hsenders]; rfl
  have hholding : total SenderPc.holding s.senders = 0 :=
    total_eq_zero fun sender ↦ by rw [hsenders]; rfl
  have hunread : s.unread = 0 := by
    unfold State.unread
    rw [hmemory]
    exact Nat.zero_sub _
  have hstoring : ∀ {sender msg ticket}, s.senders sender ≠ .store msg ticket := by
    intro sender msg ticket h
    rw [hsenders] at h
    exact absurd h nofun
  refine
    { represents :=
        { counts :=
            { reserved := by rw [hmemory, hreserving, hreceiver]; rfl
              reserved_le := by rw [hmemory]; exact Int.natCast_nonneg _
              ready := by rw [hmemory, hpublishing, hreceiver]; rfl
              ready_nonneg := by rw [hmemory]; exact le_refl _
              senders := fun sender ↦ by rw [hsenders]; trivial }
          length := by rw [hmemory]; rfl
          buffer := ?_
          storing := fun _ _ _ h ↦ absurd h hstoring
          unique := fun _ _ _ _ _ h ↦ absurd h hstoring
          receiver := by rw [hreceiver]; trivial }
      accepted_eq := by rw [hholding]; rfl
      returned_eq := (List.take_nil).symm }
  rw [hunread, hmemory]
  exact (TicketBuffer.nil fun _ ↦ rfl).congr fun ticket ↦
    ⟨fun ⟨_, _, h⟩ ↦ hstoring h, False.elim⟩

/-- Every run in ticket order keeps account of the messages. -/
theorem delivered_of_run (hcalloc : capacity * 8 < 2 ^ 64)
    (hrun : (system Msg Sender capacity).Run InTicketOrder labels s) : Delivered labels s :=
  hrun.history (fun _ ↦ .init) fun _ _ _ _ h horder hstep ↦ h.step hcalloc horder hstep

/-- While no message is on its way, one that is ready can be removed. -/
theorem Delivered.removeOne (hcalloc : capacity * 8 < 2 ^ 64)
    (hrun : (system Msg Sender capacity).Run InTicketOrder labels s) (hquiescent : s.Quiescent)
    (hready : 0 < s.memory.readySize) :
    ∃ more next, (system Msg Sender capacity).Run InTicketOrder (labels ++ more) next ∧
      (∀ label ∈ more, label.ByReceiver) ∧ next.Quiescent ∧
      next.memory.readySize = s.memory.readySize - 1 := by
  obtain ⟨hsenders, hreceiver⟩ := hquiescent
  have hidle : ∀ {s' : State Msg Sender capacity}, s'.senders = s.senders →
      InTicketOrder s' .receiverStep := by
    intro s' hsame ticket _ sender msg hsender
    rw [hsame, hsenders] at hsender
    exact absurd hsender nofun
  have hcall := hrun.step (by trivial) (show Step _ .remove _ from .remove hreceiver)
  have hload := hcall.step (hidle rfl)
    (show Step _ .receiverStep _ from .receiverStep (if_neg (not_le.mpr hready)))
  have hexchange := hload.step (hidle rfl)
    (show Step _ .receiverStep _ from .receiverStep (if_pos rfl))
  have hstart := hexchange.step (hidle rfl) (show Step _ .receiverStep _ from .receiverStep rfl)
  have hread := hstart.step (hidle rfl) (show Step _ .receiverStep _ from .receiverStep rfl)
  have hclear := hread.step (hidle rfl) (show Step _ .receiverStep _ from .receiverStep rfl)
  obtain ⟨-, msg, -, hmsg⟩ := (delivered_of_run hcalloc hclear).represents.receiver
  have hcheck := hclear.step (hidle rfl)
    (show Step _ .receiverStep _ from .receiverStep (if_pos (by rw [hmsg]; rfl)))
  have hsub := hcheck.step (hidle rfl) (show Step _ .receiverStep _ from .receiverStep rfl)
  have hfinish := hsub.step (by trivial)
    (show Step _ (.removeFinish _) _ from .removeFinish rfl)
  simp only [List.append_assoc] at hfinish
  refine ⟨_, _, hfinish, ?_, ⟨hsenders, rfl⟩, rfl⟩
  simp [Label.ByReceiver]

/-- All messages that are ready can be removed. -/
theorem Delivered.removeAll (hcalloc : capacity * 8 < 2 ^ 64) (count : ℕ)
    (hrun : (system Msg Sender capacity).Run InTicketOrder labels s) (hquiescent : s.Quiescent)
    (hready : s.memory.readySize = count) :
    ∃ more next, (system Msg Sender capacity).Run InTicketOrder (labels ++ more) next ∧
      (∀ label ∈ more, label.ByReceiver) ∧ next.Quiescent ∧ next.memory.readySize = 0 := by
  induction count generalizing labels s with
  | zero => exact ⟨[], s, by rwa [List.append_nil], nofun, hquiescent, hready⟩
  | succ count ih =>
    obtain ⟨first, middle, hfirst, hbyFirst, hmiddle, hone⟩ :=
      Delivered.removeOne hcalloc hrun hquiescent (by omega)
    obtain ⟨rest, next, hrest, hbyRest, hnext, hzero⟩ := ih hfirst hmiddle (by omega)
    rw [List.append_assoc] at hrest
    refine ⟨first ++ rest, next, hrest, fun label hmem ↦ ?_, hnext, hzero⟩
    exact (List.mem_append.mp hmem).elim (hbyFirst label) (hbyRest label)

omit [Fintype Sender] [DecidableEq Sender] [NeZero capacity] in
theorem accepted_byReceiver {labels : List (Label Msg Sender)}
    (hby : ∀ label ∈ labels, label.ByReceiver) : accepted labels = [] := by
  refine List.filterMap_eq_nil_iff.mpr fun label hmem ↦ ?_
  have hlabel := hby label hmem
  cases label with
  | insertFinish sender msg result => exact hlabel.elim
  | _ => rfl

omit [DecidableEq Sender] in
/-- While no insertion is in progress, every message with a ticket was accepted. -/
theorem Delivered.accepted_perm (h : Delivered labels s)
    (hsenders : ∀ sender, s.senders sender = .idle) : (accepted labels).Perm (drawn labels) := by
  have hholding : total SenderPc.holding s.senders = 0 :=
    total_eq_zero fun sender ↦ by rw [hsenders]; rfl
  have heq := h.accepted_eq
  rw [hholding, add_zero, Multiset.coe_eq_coe] at heq
  exact heq.symm

omit [DecidableEq Sender] in
/-- While no call is in progress and no message is ready, all were returned. -/
theorem Delivered.returned_eq_drawn (h : Delivered labels s) (hquiescent : s.Quiescent)
    (hready : s.memory.readySize = 0) : returned labels = drawn labels := by
  obtain ⟨hsenders, hreceiver⟩ := hquiescent
  have hpublishing : total SenderPc.publishing s.senders = 0 :=
    total_eq_zero fun sender ↦ by rw [hsenders]; rfl
  have hcount := h.represents.counts.ready
  have hreturned := h.returned_eq
  rw [hready, hpublishing, hreceiver] at hcount
  rw [hreceiver] at hreturned
  have hlength := h.represents.length
  rw [hreturned]
  refine List.take_of_length_le ?_
  simp only [ReceiverPc.claimed] at hcount
  change (drawn labels).length ≤ s.memory.start - 0
  omega

/-- **Exactly-once delivery.** Assumes: `calloc` succeeds, the receiver reads the slot of a ticket
only after the message of the ticket is stored, and no sender stores its message in the slot of an
unread one from before `write_loc` wrapped. The assertion of `actor_remove_msg` does not fail, the
receiver finds the message of its ticket in the slot, and a sender finds its slot empty. The
messages are returned in the order of their tickets, each at most once. While no insertion is in
progress, the messages with a ticket are those for which `actor_insert_msg` returned true, and the
receiver can remove all that are left. -/
theorem mailbox_delivered_once (hcalloc : capacity * 8 < 2 ^ 64)
    (hrun : (system Msg Sender capacity).Run InTicketOrder labels s) :
    s.receiver ≠ .failed ∧
    (∀ result, s.receiver = .check result → result.isSome) ∧
    (∀ ticket, s.receiver = .read ticket → InTicketOrder s .receiverStep →
      ∃ msg, (drawn labels)[ticket]? = some msg ∧
        s.memory.mailbox (slot ticket) = some msg) ∧
    (∀ sender msg ticket, s.senders sender = .store msg ticket →
      InTicketOrder s (.senderStep sender none) → s.memory.mailbox (slot ticket) = none) ∧
    returned labels <+: drawn labels ∧
    (accepted labels).Subperm (drawn labels) ∧
    ((∀ sender, s.senders sender = .idle) → (accepted labels).Perm (drawn labels)) ∧
    (s.Quiescent → ∃ more next,
      (system Msg Sender capacity).Run InTicketOrder (labels ++ more) next ∧
      (∀ label ∈ more, label.ByReceiver) ∧ next.Quiescent ∧
      (returned (labels ++ more)).Perm (accepted labels)) := by
  have h := delivered_of_run hcalloc hrun
  have hat := h.represents.receiver
  refine ⟨fun hpc ↦ ?_, fun result hpc ↦ ?_, fun ticket hpc horder ↦
    (h.represents.mailbox_eq_some hpc horder).2, fun sender msg ticket hpc horder ↦
    h.represents.mailbox_eq_none hpc horder, ?_, ?_, h.accepted_perm, fun hquiescent ↦ ?_⟩
  · rw [hpc] at hat
    exact hat
  · rw [hpc] at hat
    obtain ⟨-, msg, -, hresult⟩ := hat
    rw [hresult]
    rfl
  · rw [h.returned_eq]
    exact List.take_prefix ..
  · have hle : (accepted labels : Multiset Msg) ≤ drawn labels := by
      rw [h.accepted_eq]
      exact Multiset.le_add_right ..
    exact Multiset.coe_le.mp hle
  · obtain ⟨count, hcount⟩ := Int.eq_ofNat_of_zero_le h.represents.counts.ready_nonneg
    obtain ⟨more, next, hmore, hby, hnext, hready⟩ :=
      Delivered.removeAll hcalloc count hrun hquiescent hcount
    have hdelivered := delivered_of_run hcalloc hmore
    refine ⟨more, next, hmore, hby, hnext, ?_⟩
    have hperm := hdelivered.accepted_perm hnext.1
    rw [accepted_append, accepted_byReceiver hby, List.append_nil] at hperm
    rw [hdelivered.returned_eq_drawn hnext hready]
    exact hperm.symm

/-- Two senders insert a message each, at the same time, and one message is removed. -/
def insertRemove : List (Label ℕ Bool) :=
  [.insert true 7, .senderStep true none, .insert false 8, .senderStep true none,
    .senderStep false none, .senderStep false none, .senderStep false (some 8),
    .senderStep true (some 7), .senderStep true none, .senderStep false none,
    .senderStep false none, .insertFinish false 8 true, .senderStep true none,
    .insertFinish true 7 true, .remove, .receiverStep, .receiverStep, .receiverStep, .receiverStep,
    .receiverStep, .receiverStep, .receiverStep, .removeFinish (some 8)]

/-- A mailbox for two messages, and two senders. -/
def smallSystem : TransitionSystem (State ℕ Bool 2) (Label ℕ Bool) := system ℕ Bool 2

section SmallSystem

variable {allowed : State ℕ Bool 2 → Label ℕ Bool → Prop} {labels : List (Label ℕ Bool)}
  {s : State ℕ Bool 2} {memory : Memory ℕ 2}

theorem smallSystem_start : smallSystem.Run allowed [] ⟨actorInit, fun _ ↦ .idle, .idle⟩ :=
  .start ⟨rfl, fun _ ↦ rfl, rfl⟩

theorem smallSystem_senderStep {pc : SenderPc ℕ} (sender : Bool)
    (hrun : smallSystem.Run allowed labels s)
    (hallowed : allowed s (.senderStep sender (s.senders sender).draws))
    (hadvance : (s.senders sender).advance s.memory = some (pc, memory)) :
    smallSystem.Run allowed (labels ++ [.senderStep sender (s.senders sender).draws])
      { s with memory := memory, senders := Function.update s.senders sender pc } :=
  hrun.step hallowed (.senderStep hadvance)

theorem smallSystem_receiverStep {pc : ReceiverPc ℕ} (hrun : smallSystem.Run allowed labels s)
    (hallowed : allowed s .receiverStep)
    (hadvance : s.receiver.advance s.memory = some (pc, memory)) :
    smallSystem.Run allowed (labels ++ [.receiverStep])
      { s with memory := memory, receiver := pc } :=
  hrun.step hallowed (.receiverStep hadvance)

/-- No ticket is from before `write_loc` wrapped. -/
theorem inTicketOrder_of_lt (sender : Bool) {result : Option ℕ} {ticket : ℕ}
    (hlt : ticket < 2 ^ 64) {msg : ℕ} (hpc : s.senders sender = .store msg ticket) :
    InTicketOrder s (.senderStep sender result) := by
  intro other otherTicket hother earlier _ hwrap
  obtain ⟨-, rfl⟩ := SenderPc.store.inj (hpc.symm.trans hother)
  rw [Nat.div_eq_of_lt hlt] at hwrap
  exact absurd hwrap (Nat.not_lt_zero _)

end SmallSystem

theorem run_insertRemove : ∃ s, smallSystem.Run InTicketOrder insertRemove s := by
  have hstart : smallSystem.Run InTicketOrder [] _ := smallSystem_start
  have hfirst := hstart.step (by trivial) (show Step _ (.insert true 7) _ from .insert _ _ rfl)
  have hload := smallSystem_senderStep true hfirst nofun rfl
  have hsecond := hload.step (by trivial) (show Step _ (.insert false 8) _ from .insert _ _ rfl)
  have hexchange := smallSystem_senderStep true hsecond nofun rfl
  have hloadSecond := smallSystem_senderStep false hexchange nofun rfl
  have hexchangeSecond := smallSystem_senderStep false hloadSecond nofun rfl
  -- The second sender draws the first ticket.
  have hdrawSecond := smallSystem_senderStep false hexchangeSecond nofun rfl
  have hdraw := smallSystem_senderStep true hdrawSecond nofun rfl
  have hstore := smallSystem_senderStep true hdraw (inTicketOrder_of_lt true (by decide) rfl) rfl
  have hstoreSecond :=
    smallSystem_senderStep false hstore (inTicketOrder_of_lt false (by decide) rfl) rfl
  have haddSecond := smallSystem_senderStep false hstoreSecond nofun rfl
  have hinsertedSecond := haddSecond.step (by trivial)
    (show Step _ (.insertFinish false 8 true) _ from .insertFinish rfl)
  have hadd := smallSystem_senderStep true hinsertedSecond nofun rfl
  have hinserted := hadd.step (by trivial)
    (show Step _ (.insertFinish true 7 true) _ from .insertFinish rfl)
  have hremove := hinserted.step (by trivial) (show Step _ .remove _ from .remove rfl)
  have hready := smallSystem_receiverStep hremove nofun rfl
  have hclaim := smallSystem_receiverStep hready nofun rfl
  have hticket := smallSystem_receiverStep hclaim nofun rfl
  have hread := smallSystem_receiverStep hticket ?_ rfl
  · have hclear := smallSystem_receiverStep hread nofun rfl
    have hcheck := smallSystem_receiverStep hclear nofun rfl
    have hsub := smallSystem_receiverStep hcheck nofun rfl
    exact ⟨_, hsub.step (by trivial)
      (show Step _ (.removeFinish (some 8)) _ from .removeFinish rfl)⟩
  · rintro ticket - (_ | _) msg <;> exact nofun

theorem mailbox_delivered_once_insertRemove : returned insertRemove <+: drawn insertRemove ∧
    (accepted insertRemove).Subperm (drawn insertRemove) := by
  obtain ⟨s, hrun⟩ := run_insertRemove
  obtain ⟨-, -, -, -, hreturned, haccepted, -⟩ := mailbox_delivered_once (by decide) hrun
  exact ⟨hreturned, haccepted⟩

/-- The sender of the second ticket stores its message before that of the first, and the receiver
reads the slot of the first. -/
def publishSecond : List (Label ℕ Bool) :=
  [.insert true 7, .senderStep true none, .senderStep true none, .senderStep true (some 7),
    .insert false 8, .senderStep false none, .senderStep false none, .senderStep false (some 8),
    .senderStep false none, .senderStep false none,
    .remove, .receiverStep, .receiverStep, .receiverStep, .receiverStep, .receiverStep,
    .receiverStep]

theorem run_publishSecond : ∃ s, smallSystem.Run (fun _ _ ↦ True) publishSecond s ∧
    s.receiver = .failed := by
  have hstart : smallSystem.Run (fun _ _ ↦ True) [] _ := smallSystem_start
  have hfirst := hstart.step trivial (show Step _ (.insert true 7) _ from .insert _ _ rfl)
  have hload := smallSystem_senderStep true hfirst trivial rfl
  have hexchange := smallSystem_senderStep true hload trivial rfl
  have hdraw := smallSystem_senderStep true hexchange trivial rfl
  have hsecond := hdraw.step trivial (show Step _ (.insert false 8) _ from .insert _ _ rfl)
  have hload := smallSystem_senderStep false hsecond trivial rfl
  have hexchange := smallSystem_senderStep false hload trivial rfl
  have hdraw := smallSystem_senderStep false hexchange trivial rfl
  have hstore := smallSystem_senderStep false hdraw trivial rfl
  have hadd := smallSystem_senderStep false hstore trivial rfl
  have hremove := hadd.step trivial (show Step _ .remove _ from .remove rfl)
  have hready := smallSystem_receiverStep hremove trivial rfl
  have hclaim := smallSystem_receiverStep hready trivial rfl
  have hticket := smallSystem_receiverStep hclaim trivial rfl
  have hread := smallSystem_receiverStep hticket trivial rfl
  have hclear := smallSystem_receiverStep hread trivial rfl
  exact ⟨_, smallSystem_receiverStep hclear trivial rfl, rfl⟩

/-- The assertion can fail. -/
theorem not_mailbox_delivered_once : ¬ ∀ (labels : List (Label ℕ Bool)) (s : State ℕ Bool 2),
    smallSystem.Run (fun _ _ ↦ True) labels s → s.receiver ≠ .failed := by
  intro h
  obtain ⟨s, hrun, hfailed⟩ := run_publishSecond
  exact h publishSecond s hrun hfailed

end Libseff.Actors.Mailbox
