import Mathlib.Data.List.Basic

/-!
# Doubly linked lists in memory

A memory gives every allocated node its two links, to the node before it and to the node after it.
`DoublyLinked` reads a list of addresses off the memory: each node points back to its predecessor
and forward to its successor, between two outer addresses. The lemmas split such a list at a node,
leave it alone when the memory changes elsewhere, and insert a node behind another.
-/

set_option autoImplicit false
set_option relaxedAutoImplicit false

namespace Libseff.Foundation

/-- The links of a node. -/
structure Links (Address : Type*) where
  prev : Address
  next : Address
  deriving DecidableEq

variable {Address : Type*}

/-- The nodes of the list are linked in its order, from `before` up to `after`. -/
def DoublyLinked (links : Address → Option (Links Address)) :
    Address → List Address → Address → Prop
  | _, [], _ => True
  | before, node :: rest, after =>
    links node = some ⟨before, rest.headD after⟩ ∧ DoublyLinked links node rest after

namespace DoublyLinked

variable {links changed : Address → Option (Links Address)} {before after : Address}

@[simp] theorem nil : DoublyLinked links before [] after := trivial

@[simp] theorem cons_iff {node : Address} {rest : List Address} :
    DoublyLinked links before (node :: rest) after ↔
      links node = some ⟨before, rest.headD after⟩ ∧ DoublyLinked links node rest after := Iff.rfl

/-- A linked list is two linked lists, one behind the other. -/
theorem append_iff {front back : List Address} :
    DoublyLinked links before (front ++ back) after ↔
      DoublyLinked links before front (back.headD after) ∧
        DoublyLinked links (front.getLastD before) back after := by
  induction front generalizing before with
  | nil => simp
  | cons node rest ih =>
    have hhead : (rest ++ back).headD after = rest.headD (back.headD after) := by
      cases rest <;> simp
    rw [List.cons_append, cons_iff, cons_iff, ih, hhead, and_assoc]
    simp only [List.getLastD_cons]

/-- The links of a node in the middle. -/
theorem links_eq {front back : List Address} {node : Address}
    (h : DoublyLinked links before (front ++ node :: back) after) :
    links node = some ⟨front.getLastD before, back.headD after⟩ :=
  (append_iff.mp h).2.1

/-- A change of the memory outside the list does not change the list. -/
theorem congr {list : List Address} (h : DoublyLinked links before list after)
    (hchanged : ∀ node ∈ list, changed node = links node) :
    DoublyLinked changed before list after := by
  induction list generalizing before with
  | nil => trivial
  | cons node rest ih =>
    rw [cons_iff] at h ⊢
    refine ⟨?_, ih h.2 fun other hother ↦ hchanged other (List.mem_cons_of_mem _ hother)⟩
    rw [hchanged node List.mem_cons_self, h.1]

/-- Every node of a linked list is allocated. -/
theorem isSome_of_mem {list : List Address} (h : DoublyLinked links before list after)
    {node : Address} (hnode : node ∈ list) : (links node).isSome := by
  obtain ⟨front, back, rfl⟩ := List.append_of_mem hnode
  rw [h.links_eq, Option.isSome_some]

/-- A list between new outer addresses is linked once its first node points back to the new one
before it. -/
theorem replaceBefore {list : List Address} (h : DoublyLinked links before list after)
    {inserted : Address}
    (hhead : ∀ node ∈ list.head?, ∀ old, links node = some old →
      changed node = some ⟨inserted, old.next⟩)
    (hchanged : ∀ node ∈ list.tail, changed node = links node) :
    DoublyLinked changed inserted list after := by
  cases list with
  | nil => trivial
  | cons node rest =>
    rw [cons_iff] at h ⊢
    exact ⟨hhead node rfl _ h.1, h.2.congr hchanged⟩

/-- A node is inserted behind `current`. -/
theorem insert {below above : List Address} {current inserted : Address}
    (h : DoublyLinked links before (below ++ current :: above) after)
    (hinserted : changed inserted = some ⟨current, above.headD after⟩)
    (hcurrent : ∀ old, links current = some old → changed current = some ⟨old.prev, inserted⟩)
    (hhead : ∀ node ∈ above.head?, ∀ old, links node = some old →
      changed node = some ⟨inserted, old.next⟩)
    (hchanged : ∀ node ∈ below ++ above.tail, changed node = links node) :
    DoublyLinked changed before (below ++ current :: inserted :: above) after := by
  obtain ⟨hbelow, hrest⟩ := append_iff.mp h
  have habove := hrest.2
  refine append_iff.mpr ⟨?_, ?_, hinserted, ?_⟩
  · exact hbelow.congr fun node hnode ↦ hchanged node (List.mem_append_left _ hnode)
  · exact hcurrent _ hrest.1
  · exact habove.replaceBefore hhead
      fun node hnode ↦ hchanged node (List.mem_append_right _ hnode)

end DoublyLinked

end Libseff.Foundation
