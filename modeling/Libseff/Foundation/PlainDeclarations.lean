import Libseff.Foundation.FlatDeclarations
import Mathlib.Algebra.BigOperators.Group.List.Basic

/-!
# Arrays of pointers

The declarations that group nothing and declare no function: arrays of pointers to a named type
(`readDeclaration_plain`). The members of structures and other names for types are read as they are
declared (`readTypedef_structure`, `readTypedef_alias`), and their layouts are those of the elements
(`Plain.layout_type`).
-/

set_option autoImplicit false
set_option relaxedAutoImplicit false

namespace Libseff.Foundation.CDeclarations

/-- The parts of a declaration of arrays of pointers to a named type. -/
structure Plain where
  qualifiers : ℕ
  base : TypeName
  stars : ℕ
  lengths : List ℕ

/-- The declaration of what is written inside. -/
def Plain.tokens (plain : Plain) (inner : List Token) : List Token :=
  List.replicate plain.qualifiers .atomic ++ plain.base.tokens ++
    List.replicate plain.stars .star ++ inner ++ plain.lengths.flatMap brackets

/-- The type under the declarator. -/
def Plain.specifier (plain : Plain) : CType :=
  if plain.qualifiers = 0 then .named plain.base else .atomic (.named plain.base)

/-- The type that the declaration gives the name. -/
def Plain.type (plain : Plain) : CType :=
  plain.lengths.foldr (fun length element ↦ .array element length)
    (CType.pointer^[plain.stars] plain.specifier)

/-- What follows a declarator: a semicolon or attributes. -/
def EndsDeclarator : List Token → Prop
  | .semicolon :: _ => True
  | .attributes _ :: _ => True
  | _ => False

theorem EndsDeclarator.ends : ∀ {rest : List Token}, EndsDeclarator rest → Flat.Ends rest
  | .semicolon :: _, _ => trivial
  | .attributes _ :: _, _ => trivial

/-- The same declaration, length by length. -/
def Plain.flat (plain : Plain) : Flat :=
  plain.lengths.foldr (fun length element ↦ .array element length)
    (.base plain.qualifiers plain.base plain.stars)

theorem Plain.tokens_flat (plain : Plain) (inner : List Token) :
    plain.flat.tokens inner = plain.tokens inner := by
  obtain ⟨qualifiers, base, stars, lengths⟩ := plain
  unfold Plain.flat Plain.tokens
  dsimp only
  induction lengths generalizing inner with
  | nil => rfl
  | cons length lengths ih =>
    rw [List.foldr_cons, Flat.tokens_array, ih, List.flatMap_cons]
    simp only [List.append_assoc]

theorem Plain.type_flat (plain : Plain) (hlengths : ∀ length ∈ plain.lengths, 0 < length) :
    plain.flat.type = some plain.type := by
  obtain ⟨qualifiers, base, stars, lengths⟩ := plain
  unfold Plain.flat Plain.type
  dsimp only at hlengths ⊢
  induction lengths with
  | nil => rfl
  | cons length lengths ih =>
    have hpos := hlengths length List.mem_cons_self
    rw [List.foldr_cons, Flat.type_array, if_neg hpos.ne',
      ih fun other hother ↦ hlengths other (List.mem_cons_of_mem _ hother)]
    rfl

/-- The stars of a declaration without parentheses bind before its lengths. -/
theorem readDeclaration_plain (plain : Plain) (hlengths : ∀ length ∈ plain.lengths, 0 < length)
    (name : String) {rest : List Token} (hrest : EndsDeclarator rest) :
    readDeclaration (plain.tokens [.identifier name] ++ rest) = some (name, plain.type, rest) := by
  rw [← plain.tokens_flat, Flat.readDeclaration_flat _ name hrest.ends, plain.type_flat hlengths,
    Option.map_some]

/-- A member of a structure. -/
def memberTokens (member : String × Plain) : List Token :=
  member.2.tokens [.identifier member.1] ++ [.semicolon]

theorem readMembers_cons {tokens rest : List Token} {name : String} {type : CType}
    (hread : readDeclaration tokens = some (name, type, .semicolon :: rest)) (fuel : ℕ) :
    readMembers (fuel + 1) tokens =
      (readMembers fuel rest).map fun (members, rest) ↦ ((name, type) :: members, rest) := by
  rw [readMembers, hread]
  · simp only [Option.bind_eq_bind, Option.bind_some]
    cases readMembers fuel rest <;> rfl
  · rintro other rfl
    exact absurd hread (by simp [readDeclaration, readSpecifiers])

/-- The members of a structure are read as they are declared. -/
theorem readMembers_plain {members : List (String × Plain)}
    (hlengths : ∀ member ∈ members, ∀ length ∈ member.2.lengths, 0 < length) (rest : List Token)
    {fuel : ℕ} (hfuel : members.length ≤ fuel) :
    readMembers fuel (members.flatMap memberTokens ++ .closeBrace :: rest) =
      some (members.map fun member ↦ (member.1, member.2.type), rest) := by
  induction members generalizing fuel with
  | nil => cases fuel <;> rfl
  | cons member members ih =>
    obtain ⟨fuel, rfl⟩ := Nat.exists_eq_succ_of_ne_zero (Nat.ne_zero_of_lt hfuel)
    have htail := ih (fun other hother ↦ hlengths other (List.mem_cons_of_mem _ hother))
      (Nat.le_of_succ_le_succ hfuel)
    have hhead : ∀ others, readDeclaration
        (member.2.tokens [.identifier member.1] ++ .semicolon :: others) =
          some (member.1, member.2.type, .semicolon :: others) :=
      fun _ ↦ readDeclaration_plain member.2 (hlengths member List.mem_cons_self) member.1 trivial
    have hsplit : (member :: members).flatMap memberTokens ++ .closeBrace :: rest =
        member.2.tokens [.identifier member.1] ++
          .semicolon :: (members.flatMap memberTokens ++ .closeBrace :: rest) := by
      simp only [List.flatMap_cons, memberTokens, List.append_assoc, List.cons_append,
        List.nil_append]
    rw [hsplit, readMembers_cons (hhead _), htail]
    rfl

/-- The declaration of a structure. -/
def structureTokens (tag : String) (members : List (String × Plain)) (name : String) :
    List Token :=
  [.typedef, .struct, .identifier tag, .openBrace] ++ members.flatMap memberTokens ++
    [.closeBrace, .identifier name, .semicolon]

theorem readTypedef_structure (tag : String) {members : List (String × Plain)}
    (hlengths : ∀ member ∈ members, ∀ length ∈ member.2.lengths, 0 < length) (name : String) :
    readTypedef (structureTokens tag members name) =
      some (.structure tag (members.map fun member ↦ (member.1, member.2.type)) name) := by
  have hcount : members.length ≤ (members.flatMap memberTokens).length := by
    have hsum : members.length ≤ (members.map fun member ↦ (memberTokens member).length).sum := by
      refine le_of_eq_of_le (List.length_map _).symm (List.length_le_sum_of_one_le _ ?_)
      intro length hlength
      obtain ⟨member, -, rfl⟩ := List.mem_map.mp hlength
      simp [memberTokens]
    rwa [List.length_flatMap]
  have hmembers : ∀ rest, readMembers (members.flatMap memberTokens ++ .closeBrace :: rest).length
      (members.flatMap memberTokens ++ .closeBrace :: rest) =
        some (members.map fun member ↦ (member.1, member.2.type), rest) := by
    intro rest
    refine readMembers_plain hlengths rest (hcount.trans ?_)
    rw [List.length_append]
    exact Nat.le_add_right _ _
  simp only [structureTokens, List.cons_append, List.nil_append, readTypedef, hmembers,
    Option.bind_eq_bind, Option.bind_some]

/-- The declaration of another name for a type. -/
def aliasTokens (plain : Plain) (name : String) (attributes : List String) : List Token :=
  .typedef :: (plain.tokens [.identifier name] ++
    if attributes = [] then [.semicolon] else [.attributes attributes, .semicolon])

theorem readTypedef_alias (plain : Plain) (hlengths : ∀ length ∈ plain.lengths, 0 < length)
    (name : String) (attributes : List String) :
    readTypedef (aliasTokens plain name attributes) =
      some (.alias name plain.type attributes) := by
  have hread : ∀ rest, EndsDeclarator rest →
      readDeclaration (plain.tokens [.identifier name] ++ rest) = some (name, plain.type, rest) :=
    fun _ hrest ↦ readDeclaration_plain plain hlengths name hrest
  -- a brace behind a tag is no declarator
  have hbrace : ∀ rest, EndsDeclarator rest → ∀ tag others,
      plain.tokens [.identifier name] ++ rest ≠
        .struct :: .identifier tag :: .openBrace :: others := by
    intro rest hrest tag others heq
    have hnone := hread rest hrest
    rw [heq] at hnone
    cases hnone
  unfold aliasTokens
  split_ifs with hnone
  · have hends : EndsDeclarator [.semicolon] := trivial
    rw [readTypedef, hread _ hends, hnone]
    · rfl
    · exact hbrace _ hends
  · have hends : EndsDeclarator [.attributes attributes, .semicolon] := trivial
    rw [readTypedef, hread _ hends]
    · rfl
    · exact hbrace _ hends

/-! ### Layouts -/

/-- The layout of one element of a declaration without parentheses. -/
def Plain.unit (abi : Abi) (base : Layout) (plain : Plain) : Layout :=
  if plain.stars = 0 then
    if plain.qualifiers = 0 then base else abi.atomic base
  else pointerLayout

theorem layout_arrays (abi : Abi) {env : Env} {element : CType} {unit : Layout}
    (helement : element.layout abi env = some unit) (lengths : List ℕ) :
    (lengths.foldr (fun length element ↦ CType.array element length) element).layout abi env =
      some ⟨lengths.prod * unit.size, unit.align⟩ := by
  induction lengths with
  | nil => rw [List.foldr_nil, helement, List.prod_nil, one_mul]
  | cons length lengths ih =>
    rw [List.foldr_cons, CType.layout, ih, Option.map_some, List.prod_cons, mul_assoc]

/-- A declaration without parentheses has as many elements as its lengths say. -/
theorem Plain.layout_type (abi : Abi) {env : Env} (plain : Plain) {base : Layout}
    (hbase : plain.stars = 0 → env plain.base = some base) :
    plain.type.layout abi env =
      some ⟨plain.lengths.prod * (plain.unit abi base).size, (plain.unit abi base).align⟩ := by
  refine layout_arrays abi ?_ plain.lengths
  obtain ⟨qualifiers, name, stars, lengths⟩ := plain
  cases stars with
  | zero =>
    have hspecifier : env name = some base := hbase rfl
    cases qualifiers <;>
      simp [Plain.specifier, Plain.unit, CType.layout, hspecifier]
  | succ stars =>
    rw [Function.iterate_succ_apply']
    rfl

end Libseff.Foundation.CDeclarations
