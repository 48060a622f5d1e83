import Mathlib.Data.List.Basic
import Mathlib.Logic.Function.Basic
import Mathlib.Tactic

/-!
# Buffers that are filled by ticket

Messages get consecutive tickets, and each is stored in the slot of its ticket at some later time.
The slots are cleared in the order of the tickets. Which message a slot holds is then known as long
as no message is stored in the slot of an earlier one that is not cleared (`store`), and no slot is
cleared before its message is stored (`clear`).
-/

set_option autoImplicit false
set_option relaxedAutoImplicit false

namespace Libseff.Foundation

/-- A buffer whose slots are cleared up to the ticket `first`. The message of a pending ticket is
not stored yet. -/
structure TicketBuffer {Slot Msg : Type*} (slot : ℕ → Slot) (contents : Slot → Option Msg)
    (first : ℕ) (pending : ℕ → Prop) (sent : List Msg) : Prop where
  bounds : ∀ ticket, pending ticket → first ≤ ticket ∧ ticket < sent.length
  filled : ∀ ticket < sent.length, first ≤ ticket → ¬ pending ticket →
    contents (slot ticket) = sent[ticket]?
  empty : ∀ loc, (∀ ticket < sent.length, first ≤ ticket → ¬ pending ticket → slot ticket ≠ loc) →
    contents loc = none
  apart : ∀ ticket < sent.length, ¬ pending ticket →
    ∀ earlier < ticket, first ≤ earlier → slot earlier ≠ slot ticket

namespace TicketBuffer

variable {Slot Msg : Type*} {slot : ℕ → Slot} {contents : Slot → Option Msg} {first : ℕ}
  {pending : ℕ → Prop} {sent : List Msg}

/-- No message is sent. -/
theorem nil (hcontents : ∀ loc, contents loc = none) :
    TicketBuffer slot contents first (fun _ ↦ False) ([] : List Msg) where
  bounds := nofun
  filled := nofun
  empty := fun loc _ ↦ hcontents loc
  apart := nofun

/-- Which tickets are pending is all that matters. -/
theorem congr (h : TicketBuffer slot contents first pending sent) {pending' : ℕ → Prop}
    (hiff : ∀ ticket, pending' ticket ↔ pending ticket) :
    TicketBuffer slot contents first pending' sent := by
  obtain rfl : pending' = pending := funext fun ticket ↦ propext (hiff ticket)
  exact h

/-- A message gets the next ticket. -/
theorem draw (h : TicketBuffer slot contents first pending sent) (hfirst : first ≤ sent.length)
    (msg : Msg) : TicketBuffer slot contents first
      (fun ticket ↦ ticket = sent.length ∨ pending ticket) (sent ++ [msg]) := by
  have hold : ∀ ticket < (sent ++ [msg]).length, ¬ (ticket = sent.length ∨ pending ticket) →
      ticket < sent.length ∧ ¬ pending ticket := by
    intro ticket hlt hnot
    rw [List.length_append, List.length_singleton] at hlt
    push Not at hnot
    exact ⟨by omega, hnot.2⟩
  refine
    { bounds := ?_
      filled := fun ticket hlt hfirst hnot ↦ ?_
      empty := fun loc hfree ↦ h.empty loc fun ticket hlt hfirst hnot ↦ ?_
      apart := fun ticket hlt hnot ↦ ?_ }
  · rw [List.length_append, List.length_singleton]
    rintro ticket (rfl | hpending)
    · omega
    · have := h.bounds ticket hpending
      omega
  · obtain ⟨hbefore, hnot⟩ := hold ticket hlt hnot
    rw [List.getElem?_append_left hbefore]
    exact h.filled ticket hbefore hfirst hnot
  · rw [List.length_append] at hfree
    refine hfree ticket (by omega) hfirst ?_
    rintro (rfl | hpending)
    · exact lt_irrefl _ hlt
    · exact hnot hpending
  · obtain ⟨hbefore, hnot⟩ := hold ticket hlt hnot
    exact h.apart ticket hbefore hnot

/-- The slot of a pending message is empty. Assumes: it is not the slot of an earlier message that
is not cleared. -/
theorem contents_eq_none (h : TicketBuffer slot contents first pending sent) {ticket : ℕ}
    (hpending : pending ticket)
    (hfree : ∀ earlier < ticket, first ≤ earlier → slot earlier ≠ slot ticket) :
    contents (slot ticket) = none := by
  refine h.empty _ fun other hlt hfirst hnot ↦ ?_
  rcases lt_trichotomy other ticket with hbefore | rfl | hafter
  · exact hfree other hbefore hfirst
  · exact absurd hpending hnot
  · exact (h.apart other hlt hnot ticket hafter (h.bounds ticket hpending).1).symm

/-- A message is stored. -/
theorem store [DecidableEq Slot] (h : TicketBuffer slot contents first pending sent) {ticket : ℕ}
    {msg : Msg} (hpending : pending ticket) (hmsg : sent[ticket]? = some msg)
    (hfree : ∀ earlier < ticket, first ≤ earlier → slot earlier ≠ slot ticket) :
    TicketBuffer slot (Function.update contents (slot ticket) (some msg)) first
      (fun other ↦ pending other ∧ other ≠ ticket) sent := by
  obtain ⟨hfirst, hlength⟩ := h.bounds ticket hpending
  have hstored : ∀ other, ¬ (pending other ∧ other ≠ ticket) → other ≠ ticket → ¬ pending other :=
    fun other hnot hne hother ↦ hnot ⟨hother, hne⟩
  refine
    { bounds := fun other hother ↦ h.bounds other hother.1
      filled := fun other hlt hother hnot ↦ ?_
      empty := fun loc hunused ↦ ?_
      apart := fun other hlt hnot earlier hbefore hearlier ↦ ?_ }
  · by_cases heq : other = ticket
    · rw [heq, Function.update_self, hmsg]
    · have hslot : slot other ≠ slot ticket := by
        rcases lt_or_gt_of_ne heq with hbefore | hafter
        · exact hfree other hbefore hother
        · exact (h.apart other hlt (hstored other hnot heq) ticket hafter hfirst).symm
      rw [Function.update_of_ne hslot]
      exact h.filled other hlt hother (hstored other hnot heq)
  · have hloc : loc ≠ slot ticket :=
      (hunused ticket hlength hfirst fun hboth ↦ hboth.2 rfl).symm
    rw [Function.update_of_ne hloc]
    exact h.empty loc fun other hlt hother hnot ↦
      hunused other hlt hother fun hboth ↦ hnot hboth.1
  · by_cases heq : other = ticket
    · subst heq
      exact hfree earlier hbefore hearlier
    · exact h.apart other hlt (hstored other hnot heq) earlier hbefore hearlier

/-- What the first slot holds. -/
theorem contents_first (h : TicketBuffer slot contents first pending sent)
    (hlength : first < sent.length) (hstored : ¬ pending first) :
    ∃ msg, sent[first]? = some msg ∧ contents (slot first) = some msg := by
  refine ⟨sent[first], List.getElem?_eq_getElem hlength, ?_⟩
  rw [h.filled first hlength le_rfl hstored]
  exact List.getElem?_eq_getElem hlength

/-- The first slot is cleared. -/
theorem clear [DecidableEq Slot] (h : TicketBuffer slot contents first pending sent)
    (hstored : ¬ pending first) :
    TicketBuffer slot (Function.update contents (slot first) none) (first + 1) pending sent where
  bounds := fun ticket hpending ↦ by
    obtain ⟨hfirst, hlength⟩ := h.bounds ticket hpending
    have hne : ticket ≠ first := fun heq ↦ hstored (heq ▸ hpending)
    omega
  filled := fun ticket hlt hfirst hnot ↦ by
    have hslot := h.apart ticket hlt hnot first (by omega) le_rfl
    rw [Function.update_of_ne hslot.symm]
    exact h.filled ticket hlt (by omega) hnot
  empty := fun loc hunused ↦ by
    by_cases heq : loc = slot first
    · rw [heq, Function.update_self]
    · rw [Function.update_of_ne heq]
      refine h.empty loc fun ticket hlt hfirst hnot ↦ ?_
      rcases Nat.eq_or_lt_of_le hfirst with rfl | hafter
      · exact fun hslot ↦ heq hslot.symm
      · exact hunused ticket hlt hafter hnot
  apart := fun ticket hlt hnot earlier hbefore hfirst ↦
    h.apart ticket hlt hnot earlier hbefore (by omega)

end TicketBuffer

end Libseff.Foundation
