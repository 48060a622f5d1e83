import Mathlib.Data.List.Basic
import Mathlib.Tactic

/-!
# Messages with a head

The head of a message is a list of lines, each one ended by two characters; it ends with the first
empty line, and a length that its lines announce says how much of what stands behind it belongs to
the message. Reading a head does not depend on what stands behind it (`exists_before_of_readHead`),
so a text with a head has just one beginning that is decoded to its end (`decode_take_iff`).
-/

set_option autoImplicit false
set_option relaxedAutoImplicit false

namespace Libseff.Foundation.HeadedMessages

variable {Character : Type} [DecidableEq Character] (cr lf : Character)

/-- The lines before the first empty line, and what stands behind it. Some characters of the first
line have been read. -/
def readHead (line : List Character) :
    List Character → Option (List (List Character) × List Character)
  | first :: second :: rest =>
    if first = cr ∧ second = lf then
      if line = [] then some ([], rest)
      else (readHead [] rest).map fun (lines, behind) ↦ (line :: lines, behind)
    else readHead (line ++ [first]) (second :: rest)
  | _ => none

/-- Lines with their ends, and the empty line. -/
def head (lines : List (List Character)) : List Character :=
  (lines.map (· ++ [cr, lf])).flatten ++ [cr, lf]

/-- The message that a text starts with: how many characters it has, and those behind the head. -/
def decode (announced : List (List Character) → Option ℕ) (text : List Character) :
    Option (ℕ × List Character) :=
  (readHead cr lf [] text).bind fun (lines, behind) ↦
    (announced lines).bind fun length ↦
      if length ≤ behind.length then
        some (text.length - behind.length + length, behind.take length)
      else none

variable {cr lf}

/-! ### Reading a head -/

theorem readHead_nil_end (rest : List Character) :
    readHead cr lf [] (cr :: lf :: rest) = some ([], rest) := by
  rw [readHead, if_pos ⟨rfl, rfl⟩, if_pos rfl]

theorem readHead_end {line : List Character} (hline : line ≠ []) (rest : List Character) :
    readHead cr lf line (cr :: lf :: rest) =
      (readHead cr lf [] rest).map fun (lines, behind) ↦ (line :: lines, behind) := by
  rw [readHead, if_pos ⟨rfl, rfl⟩, if_neg hline]

theorem readHead_of_not_end {first second : Character} (hend : ¬(first = cr ∧ second = lf))
    (line rest : List Character) :
    readHead cr lf line (first :: second :: rest) =
      readHead cr lf (line ++ [first]) (second :: rest) := by
  rw [readHead, if_neg hend]

/-- The characters that are read before a return belong to the line. -/
theorem readHead_line_append {text : List Character} (htext : cr ∉ text)
    (line rest : List Character) :
    readHead cr lf line (text ++ rest) = readHead cr lf (line ++ text) rest := by
  induction text generalizing line with
  | nil => rw [List.nil_append, List.append_nil]
  | cons first text ih =>
    have hfirst : first ≠ cr := fun h ↦ htext (h ▸ List.mem_cons_self)
    have hrest : cr ∉ text := fun h ↦ htext (List.mem_cons_of_mem _ h)
    rw [List.append_cons line first text, ← ih hrest, List.cons_append]
    cases text ++ rest with
    | nil => rfl
    | cons second rest => exact readHead_of_not_end (fun h ↦ hfirst h.1) line rest

/-- A head that has been written is read back. -/
theorem readHead_head {lines : List (List Character)}
    (hlines : ∀ line ∈ lines, line ≠ [] ∧ cr ∉ line) (behind : List Character) :
    readHead cr lf [] (head cr lf lines ++ behind) = some (lines, behind) := by
  induction lines with
  | nil => exact readHead_nil_end behind
  | cons line lines ih =>
    obtain ⟨hline, hrest⟩ := List.forall_mem_cons.mp hlines
    have hsplit : head cr lf (line :: lines) ++ behind =
        line ++ (cr :: lf :: (head cr lf lines ++ behind)) := by
      simp [head]
    rw [hsplit, readHead_line_append hline.2, List.nil_append, readHead_end hline.1, ih hrest]
    rfl

/-- What stands behind a head does not matter to it. -/
theorem exists_before_of_readHead {line text behind : List Character}
    {lines : List (List Character)} (hread : readHead cr lf line text = some (lines, behind)) :
    ∃ before, text = before ++ behind ∧
      ∀ other, readHead cr lf line (before ++ other) = some (lines, other) := by
  induction line, text using readHead.induct cr lf generalizing lines with
  | case1 first second rest hend =>
    obtain ⟨rfl, rfl⟩ := hend
    rw [readHead_nil_end, Option.some_inj, Prod.mk.injEq] at hread
    obtain ⟨rfl, rfl⟩ := hread
    exact ⟨[first, second], rfl, readHead_nil_end⟩
  | case2 line first second rest hend hline ih =>
    obtain ⟨rfl, rfl⟩ := hend
    rw [readHead_end hline, Option.map_eq_some_iff] at hread
    obtain ⟨⟨rest_lines, rest_behind⟩, hrest, heq⟩ := hread
    obtain ⟨rfl, rfl⟩ := Prod.mk.inj heq
    obtain ⟨before, rfl, hbefore⟩ := ih hrest
    refine ⟨first :: second :: before, rfl, fun other ↦ ?_⟩
    rw [List.cons_append, List.cons_append, readHead_end hline, hbefore]
    rfl
  | case3 line first second rest hend ih =>
    rw [readHead_of_not_end hend] at hread
    obtain ⟨before, hsplit, hbefore⟩ := ih hread
    cases before with
    | nil => exact nomatch hbefore []
    | cons next before =>
      obtain ⟨rfl, rfl⟩ := List.cons.inj hsplit
      refine ⟨first :: second :: before, rfl, fun other ↦ ?_⟩
      rw [List.cons_append, List.cons_append, readHead_of_not_end hend]
      exact hbefore other
  | case4 text line hshort =>
    rw [readHead] at hread
    · cases hread
    · exact hshort

/-! ### Decoding -/

/-- Assumes: a head and what stands behind it. The beginning that stops at some character of that is
decoded with the length that the head announces, as far as it reaches. -/
theorem decode_append {announced : List (List Character) → Option ℕ}
    {before behind : List Character} {lines : List (List Character)} {length : ℕ}
    (hread : readHead cr lf [] (before ++ behind) = some (lines, behind))
    (hannounced : announced lines = some length) :
    decode cr lf announced (before ++ behind) =
      if length ≤ behind.length then some (before.length + length, behind.take length)
      else none := by
  unfold decode
  simp only [hread, hannounced, Option.bind_some, List.length_append, Nat.add_sub_cancel]

/-- Just one beginning of a text is decoded to its end. -/
theorem decode_take_iff {announced : List (List Character) → Option ℕ}
    {text behind content : List Character} {lines : List (List Character)} {length n : ℕ}
    (hread : readHead cr lf [] text = some (lines, behind))
    (hannounced : announced lines = some length) (hn : n ≤ text.length) :
    decode cr lf announced (text.take n) = some (n, content) ↔
      text.length + length = behind.length + n ∧ behind.take length = content := by
  constructor
  · intro hdecode
    -- the head of the beginning is a head of the text
    obtain ⟨⟨lines', behind'⟩, hpart, -⟩ := Option.bind_eq_some_iff.mp hdecode
    obtain ⟨before, hsplit, hbefore⟩ := exists_before_of_readHead hpart
    have htext : text = before ++ (behind' ++ text.drop n) := by
      rw [← List.append_assoc, ← hsplit, List.take_append_drop]
    rw [htext, hbefore, Option.some_inj, Prod.mk.injEq] at hread
    obtain ⟨rfl, rfl⟩ := hread
    rw [hsplit] at hpart hdecode
    rw [decode_append hpart hannounced] at hdecode
    have hlength := congrArg List.length hsplit
    rw [List.length_take_of_le hn, List.length_append] at hlength
    split_ifs at hdecode with hfits
    rw [Option.some_inj, Prod.mk.injEq] at hdecode
    refine ⟨?_, ?_⟩
    · rw [List.length_append, List.length_drop]
      omega
    · rw [List.take_append_of_le_length hfits]
      exact hdecode.2
  · rintro ⟨hlength, rfl⟩
    obtain ⟨before, rfl, hbefore⟩ := exists_before_of_readHead hread
    rw [List.length_append] at hlength hn
    have hfits : length ≤ behind.length := by omega
    have htake : (before ++ behind).take n = before ++ behind.take length := by
      rw [List.take_append, List.take_of_length_le (by omega),
        show n - before.length = length by omega]
    rw [htake, decode_append (hbefore _) hannounced, if_pos (by rw [List.length_take_of_le hfits]),
      List.take_take, min_self, show before.length + length = n by omega]

end Libseff.Foundation.HeadedMessages
