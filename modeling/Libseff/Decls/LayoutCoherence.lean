import Libseff.Decls.Generate
import Libseff.Foundation.PlainDeclarations
import Mathlib.Algebra.Order.Ring.Nat

/-!
# The layout of generated structures

A `Struct` adds up the sizes of its fields, and C lays its declaration out with alignment and with
the type that the declarator of each field really says. Every generated declaration is one of
arrays of pointers to a named type (`TypeExpr.plain`), since `ptr` only adds stars and `arr` only
adds lengths, and the size of that type may be another one than was recorded. The text for
assembly has the place of each field in the last structure that took the field
(`placements_eq_iff`). So the two layouts are the same exactly if the recorded sizes add up to the
places in C, and no later structure takes a field (`coherent_iff`).
-/

set_option autoImplicit false
set_option relaxedAutoImplicit false

namespace Libseff.Decls

open Libseff.Foundation Libseff.Foundation.CDeclarations

/-! ### C on x86-64 -/

def Builtin.layout : Builtin → Layout
  | .byte => ⟨1, 1⟩
  | .halfWord => ⟨4, 4⟩
  | .word => ⟨8, 8⟩
  | .sizeT => ⟨8, 8⟩

/-- The names of `stdint.h` and `stddef.h` that the generator uses. -/
def builtinEnv : Env
  | .plain "uint8_t" => some Builtin.byte.layout
  | .plain "uint32_t" => some Builtin.halfWord.layout
  | .plain "uint64_t" => some Builtin.word.layout
  | .plain "size_t" => some Builtin.sizeT.layout
  | _ => none

/-- The names that C knows after reading the header of some contents. -/
def readHeader (abi : Abi) : List Definition → Option Env
  | [] => some builtinEnv
  | definition :: earlier => do
    let env ← readHeader abi earlier
    let declaration ← readTypedef (codeOf (definition.cStr (sizes earlier)))
    declare abi env declaration

/-- The offset of each member, under the label of the field, and the size of a structure, as C lays
out its declaration. -/
def cLayout (abi : Abi) (earlier : List Definition) (struct : Struct) :
    Option (List (String × ℕ) × ℕ) := do
  let env ← readHeader abi earlier
  match ← readTypedef (codeOf struct.cStr) with
  | .structure _ members name =>
    let layouts ← memberLayouts abi env members
    some ((members.map fun member ↦ label name member.1).zip (memberOffsets layouts),
      (structLayout layouts).size)
  | .alias .. => none

/-- Assembly gets for a structure of a file what C has: the label of each field at its offset, and
the recorded size. The text for assembly is made after the definitions that come `later`. -/
def Coherent (abi : Abi) (later earlier : List Definition) (name : String)
    (fields : List FieldExpr) : Prop :=
  let struct : Struct := ⟨name, toFields (sizes earlier) fields⟩
  ∃ offsets,
    struct.asmStr (placements (later ++ .struct name fields :: earlier)) = some offsets ∧
      cLayout abi earlier struct = some (offsets, struct.ty.size)

/-! ### Layouts of expressions -/

/-- The declaration that an expression writes. -/
def TypeExpr.plain : TypeExpr → Plain
  | .builtin type => ⟨0, .plain type.name, 0, []⟩
  | .declared name => ⟨0, .plain name, 0, []⟩
  | .ptrNamed name => ⟨0, name, 1, []⟩
  | .ptr target => { target.plain with stars := target.plain.stars + 1 }
  | .arr element length => { element.plain with lengths := length :: element.plain.lengths }
  | .atomic type => { type.plain with qualifiers := type.plain.qualifiers + 1 }

/-- The layout of the type that an expression names in the end. -/
def TypeExpr.base (layouts : String → Layout) : TypeExpr → Layout
  | .builtin type => type.layout
  | .declared name => layouts name
  | .ptrNamed _ => pointerLayout
  | .ptr target => target.base layouts
  | .arr element _ => element.base layouts
  | .atomic type => type.base layouts

/-- The layout of an element of the arrays of an expression. -/
def TypeExpr.unit (abi : Abi) (layouts : String → Layout) (expr : TypeExpr) : Layout :=
  expr.plain.unit abi (expr.base layouts)

/-- The layout of an expression. -/
def TypeExpr.layout (abi : Abi) (layouts : String → Layout) (expr : TypeExpr) : Layout :=
  ⟨expr.plain.lengths.prod * (expr.unit abi layouts).size, (expr.unit abi layouts).align⟩

/-- The layout of a definition. -/
def Definition.layout (abi : Abi) (layouts : String → Layout) : Definition → Layout
  | .struct _ fields => structLayout (fields.map fun field ↦ field.type.layout abi layouts)
  | .typedef _ target attrs =>
    if attrs = [] then target.layout abi layouts
    else abi.attributes attrs (target.layout abi layouts)
  | .enum _ _ underlying => (underlyingOf underlying).layout abi layouts

/-- The layouts of the definitions so far. -/
def layouts (abi : Abi) : List Definition → String → Layout
  | [], _ => ⟨0, 1⟩
  | definition :: earlier, name =>
    if name = definition.name then definition.layout abi (layouts abi earlier)
    else layouts abi earlier name

/-! ### The condition -/

/-- The recorded sizes of the fields of a structure with the layouts of their types. -/
def fieldLayouts (abi : Abi) (sizes : String → ℕ) (layouts : String → Layout)
    (fields : List FieldExpr) : List (ℕ × Layout) :=
  fields.map fun field ↦ ((field.type.ty sizes).size, field.type.layout abi layouts)

/-- The recorded sizes of a structure add up to its layout: each field begins at a multiple of its
alignment, has at most the recorded size, and ends less than an alignment before the next one, and
the sum is a multiple of the largest alignment. -/
def Tight (abi : Abi) (earlier : List Definition) (fields : List FieldExpr) : Prop :=
  let members := fieldLayouts abi (sizes earlier) (layouts abi earlier) fields
  Aligned 0 members ∧ Fills (largestAlign (members.map Prod.snd)) members ∧
    largestAlign (members.map Prod.snd) ∣ (members.map Prod.fst).sum

instance decidableTight (abi : Abi) (earlier : List Definition) (fields : List FieldExpr) :
    Decidable (Tight abi earlier fields) :=
  inferInstanceAs (Decidable (_ ∧ _ ∧ _))

/-- No later structure takes one of the field objects. -/
def Unshared (later : List Definition) (fields : List FieldExpr) : Prop :=
  ∀ definition ∈ later, ∀ field ∈ fields, field.id ∉ definition.fields.map FieldExpr.id

instance decidableUnshared (later : List Definition) (fields : List FieldExpr) :
    Decidable (Unshared later fields) :=
  inferInstanceAs (Decidable (∀ definition ∈ later, ∀ field ∈ fields, _))

/-! ### Reading what is written -/

/-- What an expression declares is a declaration without parentheses. -/
theorem TypeExpr.declare_eq (sizes : String → ℕ) (expr : TypeExpr) (inner : List Token) :
    (expr.ty sizes).declare inner = expr.plain.tokens inner := by
  induction expr generalizing inner with
  | builtin type => cases type <;> exact (List.append_nil _).symm
  | declared name => exact (List.append_nil _).symm
  | ptrNamed name =>
    simp [TypeExpr.ty, TypeExpr.plain, Plain.tokens, Decls.ptr, unsizedNamedTy]
  | ptr target ih =>
    simp only [TypeExpr.ty, Decls.ptr, ih, TypeExpr.plain, Plain.tokens, List.replicate_succ',
      List.append_assoc, List.cons_append, List.nil_append]
  | arr element length ih =>
    simp only [TypeExpr.ty, Decls.arr, ih, TypeExpr.plain, Plain.tokens, List.append_assoc,
      List.flatMap_cons]
  | atomic type ih =>
    simp only [TypeExpr.ty, Decls.atomic, ih, TypeExpr.plain, Plain.tokens, List.replicate_succ,
      List.cons_append]

theorem TypeExpr.lengths_pos {names : List String} {expr : TypeExpr} (hscoped : expr.Scoped names) :
    ∀ length ∈ expr.plain.lengths, 0 < length := by
  induction expr with
  | builtin _ | declared _ | ptrNamed _ => exact List.forall_mem_nil _
  | ptr target ih => exact ih hscoped
  | arr element length ih => exact List.forall_mem_cons.mpr ⟨hscoped.1, ih hscoped.2⟩
  | atomic type ih => exact ih hscoped

/-- The declarations of the fields of a structure. -/
def plainFields (fields : List FieldExpr) : List (String × Plain) :=
  fields.map fun field ↦ (field.name, field.type.plain)

theorem codeOf_struct (sizes : String → ℕ) (name : String) (fields : List FieldExpr) :
    codeOf (Struct.cStr ⟨name, toFields sizes fields⟩) =
      structureTokens ("_" ++ name) (plainFields fields) name := by
  have hfields : codeOf ((toFields sizes fields).map Field.cStr) =
      (plainFields fields).flatMap memberTokens := by
    simp only [codeOf, toFields, plainFields, List.map_map, List.flatMap_map]
    refine List.flatMap_congr fun field _ ↦ ?_
    simp only [Function.comp_apply, Field.cStr, TypeExpr.declare_eq, memberTokens]
  rw [structureTokens, ← hfields]
  simp only [Struct.cStr, codeOf, List.cons_append, List.flatMap_cons, List.flatMap_append,
    List.flatMap_nil, List.append_nil, List.nil_append]

theorem codeOf_typedef (sizes : String → ℕ) (name : String) (target : TypeExpr)
    (attrs : List String) :
    codeOf (Typedef.cStr ⟨name, target.ty sizes, attrs⟩) =
      aliasTokens target.plain name attrs := by
  cases attrs <;> simp [Typedef.cStr, codeOf, aliasTokens, TypeExpr.declare_eq]

theorem codeOf_enum (sizes : String → ℕ) (name : String) (cases : List Case)
    (underlying : Option TypeExpr) :
    codeOf (toEnum sizes name cases underlying).cStr =
      aliasTokens (underlyingOf underlying).plain name [] := by
  have hdefines : ∀ entries : List (String × ℤ), codeOf
      (entries.map fun entry ↦ Line.define entry.1 name entry.2) = [] := by
    intro entries
    rw [codeOf, List.flatMap_map]
    exact List.flatMap_eq_nil_iff.mpr fun _ _ ↦ rfl
  have hsplit : codeOf (toEnum sizes name cases underlying).cStr =
      .typedef :: ((underlyingOf underlying).ty sizes).declare [.identifier name] ++
        [.semicolon] ++ codeOf ((toEnum sizes name cases underlying).cases.map
          fun entry ↦ Line.define entry.1 name entry.2) := rfl
  rw [hsplit, hdefines, TypeExpr.declare_eq, List.append_nil]
  rfl

/-- The members that C reads from the declaration of a structure. -/
def readFields (fields : List FieldExpr) : List (String × CType) :=
  (plainFields fields).map fun field ↦ (field.1, field.2.type)

theorem readTypedef_struct {names : List String} {fields : List FieldExpr}
    (hscoped : ∀ field ∈ fields, field.type.Scoped names) (sizes : String → ℕ) (name : String) :
    readTypedef (codeOf (Struct.cStr ⟨name, toFields sizes fields⟩)) =
      some (.structure ("_" ++ name) (readFields fields) name) := by
  rw [codeOf_struct]
  refine readTypedef_structure ("_" ++ name) ?_ name
  intro member hmember
  obtain ⟨field, hfield, rfl⟩ := List.mem_map.mp hmember
  exact TypeExpr.lengths_pos (hscoped field hfield)

/-! ### The layouts that C finds -/

/-- C knows the built-in names and some others by their layouts. -/
structure Knows (env : Env) (names : List String) (layouts : String → Layout) : Prop where
  builtin : ∀ type : Builtin, env (.plain type.name) = some type.layout
  declared : ∀ name ∈ names, env (.plain name) = some (layouts name)

section Knowing

variable {env : Env} {names : List String} {layouts : String → Layout}

theorem Knows.base (hknows : Knows env names layouts) {expr : TypeExpr}
    (hscoped : expr.Scoped names) (hstars : expr.plain.stars = 0) :
    env expr.plain.base = some (expr.base layouts) := by
  induction expr with
  | builtin type => exact hknows.builtin type
  | declared name => exact hknows.declared name hscoped
  | ptrNamed _ => cases hstars
  | ptr _ _ => cases hstars
  | arr element length ih => exact ih hscoped.2 hstars
  | atomic type ih => exact ih hscoped hstars

/-- C lays out a field as the expression of its type says. -/
theorem Knows.layout (abi : Abi) (hknows : Knows env names layouts) {expr : TypeExpr}
    (hscoped : expr.Scoped names) :
    expr.plain.type.layout abi env = some (expr.layout abi layouts) :=
  Plain.layout_type abi expr.plain (hknows.base hscoped)

theorem Knows.memberLayouts (abi : Abi) (hknows : Knows env names layouts)
    {fields : List FieldExpr} (hscoped : ∀ field ∈ fields, field.type.Scoped names) :
    memberLayouts abi env (readFields fields) =
      some (fields.map fun field ↦ field.type.layout abi layouts) := by
  induction fields with
  | nil => rfl
  | cons field fields ih =>
    have htail := ih fun other hother ↦ hscoped other (List.mem_cons_of_mem _ hother)
    have hhead := hknows.layout abi (hscoped field List.mem_cons_self)
    simp only [CDeclarations.memberLayouts, readFields, plainFields, List.map_cons, List.mapM_cons,
      hhead, Option.bind_eq_bind, Option.bind_some] at htail ⊢
    rw [htail]
    rfl

/-- One more name keeps the layouts of the others. -/
theorem Knows.update (hknows : Knows env names layouts) {name : String}
    (hbuiltin : name ∉ builtinNames) (hfresh : name ∉ names) (layout : Layout) :
    Knows (Function.update env (.plain name) (some layout)) (name :: names)
      fun other ↦ if other = name then layout else layouts other where
  builtin type := by
    have hne : type.name ≠ name := by
      rintro rfl
      exact hbuiltin (by cases type <;> decide)
    rw [Function.update_of_ne (fun heq ↦ hne (TypeName.plain.inj heq)), hknows.builtin type]
  declared other hother := by
    by_cases heq : other = name
    · rw [heq, Function.update_self, if_pos rfl]
    · have hmem : other ∈ names := List.mem_of_ne_of_mem heq hother
      rw [Function.update_of_ne (fun hplain ↦ heq (TypeName.plain.inj hplain)), if_neg heq,
        hknows.declared other hmem]

/-- A tag is not the name of a type. -/
theorem Knows.update_tagged (hknows : Knows env names layouts) (tag : String)
    (layout : Option Layout) :
    Knows (Function.update env (.tagged tag) layout) names layouts where
  builtin type := by
    rw [Function.update_of_ne (by rintro ⟨⟩), hknows.builtin type]
  declared name hname := by
    rw [Function.update_of_ne (by rintro ⟨⟩), hknows.declared name hname]

/-- C knows a definition by its layout after reading it. -/
theorem Knows.define (abi : Abi) (hknows : Knows env names layouts) {definition : Definition}
    (hbuiltin : definition.name ∉ builtinNames) (hfresh : definition.name ∉ names)
    (hscoped : ∀ expr ∈ definition.exprs, expr.Scoped names) (sizes : String → ℕ) :
    ∃ declaration next, readTypedef (codeOf (definition.cStr sizes)) = some declaration ∧
      declare abi env declaration = some next ∧
      Knows next (definition.name :: names) fun other ↦
        if other = definition.name then definition.layout abi layouts else layouts other := by
  cases definition with
  | struct name fields =>
    have hfields : ∀ field ∈ fields, field.type.Scoped names :=
      fun field hfield ↦ hscoped _ (List.mem_map_of_mem hfield)
    have hafter := hknows.update_tagged ("_" ++ name)
      (some (Definition.layout abi layouts (.struct name fields)))
    refine ⟨_, _, readTypedef_struct hfields sizes name, ?_, hafter.update hbuiltin hfresh _⟩
    rw [declare, hknows.memberLayouts abi hfields]
    rfl
  | typedef name target attrs =>
    have htarget := hscoped target List.mem_cons_self
    have hread := readTypedef_alias _ (TypeExpr.lengths_pos htarget) name attrs
    rw [← codeOf_typedef sizes] at hread
    refine ⟨_, _, hread, ?_, hknows.update hbuiltin hfresh _⟩
    rw [declare, hknows.layout abi htarget]
    rfl
  | enum name cases underlying =>
    have htarget := hscoped (underlyingOf underlying) List.mem_cons_self
    have hread := readTypedef_alias _ (TypeExpr.lengths_pos htarget) name []
    rw [← codeOf_enum sizes name cases] at hread
    refine ⟨_, _, hread, ?_, hknows.update hbuiltin hfresh _⟩
    rw [declare, hknows.layout abi htarget]
    rfl

end Knowing

/-- C reads a header, and knows each definition by its layout. -/
theorem readHeader_knows (abi : Abi) {contents : List Definition} (hscoped : Scoped contents) :
    ∃ env, readHeader abi contents = some env ∧
      Knows env (contents.map Definition.name) (layouts abi contents) := by
  induction contents with
  | nil => exact ⟨builtinEnv, rfl, fun type ↦ by cases type <;> rfl, List.forall_mem_nil _⟩
  | cons definition earlier ih =>
    obtain ⟨⟨hbuiltin, hfresh⟩, hexprs, -, hearlier⟩ := hscoped
    obtain ⟨env, hread, hknows⟩ := ih hearlier
    obtain ⟨declaration, next, hdeclaration, hnext, hafter⟩ :=
      hknows.define abi hbuiltin hfresh hexprs (sizes earlier)
    refine ⟨next, ?_, hafter⟩
    simp only [readHeader, hread, Option.bind_eq_bind, Option.bind_some, hdeclaration, hnext]

/-- What C finds for a structure. -/
theorem cLayout_eq (abi : Abi) {earlier : List Definition} {name : String}
    {fields : List FieldExpr} (hscoped : Scoped (.struct name fields :: earlier)) :
    cLayout abi earlier ⟨name, toFields (sizes earlier) fields⟩ =
      let members := (fieldLayouts abi (sizes earlier) (layouts abi earlier) fields).map Prod.snd
      some ((fields.map fun field ↦ label name field.name).zip (memberOffsets members),
        (structLayout members).size) := by
  obtain ⟨-, hexprs, -, hearlier⟩ := hscoped
  have hfields : ∀ field ∈ fields, field.type.Scoped (earlier.map Definition.name) :=
    fun field hfield ↦ hexprs _ (List.mem_map_of_mem hfield)
  obtain ⟨env, hread, hknows⟩ := readHeader_knows abi hearlier
  have hlabels : (readFields fields).map (fun member ↦ label name member.1) =
      fields.map fun field ↦ label name field.name := by
    simp only [readFields, plainFields, List.map_map, Function.comp_def]
  have hlayouts : (fieldLayouts abi (sizes earlier) (layouts abi earlier) fields).map Prod.snd =
      fields.map fun field ↦ field.type.layout abi (layouts abi earlier) := by
    simp only [fieldLayouts, List.map_map, Function.comp_def]
  simp only [cLayout, hread, Option.bind_eq_bind, Option.bind_some,
    readTypedef_struct hfields, hknows.memberLayouts abi hfields, hlabels, hlayouts]


/-! ### Alignments -/

section Alignments

variable {layouts : String → Layout}

theorem TypeExpr.align_pos (abi : Abi) (hlayouts : ∀ name, 0 < (layouts name).align)
    (expr : TypeExpr) : 0 < (expr.layout abi layouts).align := by
  have hbase : 0 < (expr.base layouts).align := by
    induction expr with
    | builtin type => cases type <;> exact Nat.succ_pos _
    | declared name => exact hlayouts name
    | ptrNamed _ => exact Nat.succ_pos _
    | ptr target ih => exact ih
    | arr element length ih => exact ih
    | atomic type ih => exact ih
  simp only [TypeExpr.layout, TypeExpr.unit, Plain.unit]
  split_ifs
  · exact hbase
  · exact abi.atomic_align_pos _ hbase
  · exact Nat.succ_pos _

theorem Definition.align_pos (abi : Abi) (hlayouts : ∀ name, 0 < (layouts name).align)
    (definition : Definition) : 0 < (definition.layout abi layouts).align := by
  cases definition with
  | struct name fields => exact largestAlign_pos _
  | typedef name target attrs =>
    have htarget := target.align_pos abi hlayouts
    rw [Definition.layout]
    split_ifs
    · exact htarget
    · exact abi.attributes_align_pos _ _ htarget
  | enum name cases underlying => exact TypeExpr.align_pos abi hlayouts _

end Alignments

theorem layouts_align_pos (abi : Abi) (contents : List Definition) (name : String) :
    0 < (layouts abi contents name).align := by
  induction contents generalizing name with
  | nil => exact Nat.one_pos
  | cons definition earlier ih =>
    rw [layouts]
    split_ifs
    · exact definition.align_pos abi ih
    · exact ih name

/-! ### What stands in the field objects -/

section Placing

variable {parent : String} {fields : List Field} {placements : Placements} {id : ℕ}

/-- The loop of a structure ends with the sum of the sizes. -/
theorem placeFields_snd (parent : String) (offset : ℕ) (fields : List Field)
    (placements : Placements) : (placeFields parent offset fields placements).2 =
      (runningSums offset (fields.map fun field ↦ field.ty.size)).2 := by
  induction fields generalizing offset placements with
  | nil => rfl
  | cons field fields ih => exact ih _ _

/-- The loop writes into its own fields only. -/
theorem placeFields_of_notMem (offset : ℕ) (hid : id ∉ fields.map Field.id) :
    (placeFields parent offset fields placements).1 id = placements id := by
  induction fields generalizing offset placements with
  | nil => rfl
  | cons field fields ih =>
    have hrest : id ∉ fields.map Field.id := fun hmem ↦ hid (List.mem_cons_of_mem _ hmem)
    have hne : id ≠ field.id := fun heq ↦ hid (heq ▸ List.mem_cons_self)
    rw [placeFields, ih _ hrest, Function.update_of_ne hne]

/-- The loop writes its parent into each of its fields. -/
theorem placeFields_of_mem (offset : ℕ) (hid : id ∈ fields.map Field.id) :
    ∃ start, (placeFields parent offset fields placements).1 id = some ⟨parent, start⟩ := by
  induction fields generalizing offset placements with
  | nil => exact absurd hid List.not_mem_nil
  | cons field fields ih =>
    by_cases hrest : id ∈ fields.map Field.id
    · exact ih _ hrest
    · have hself : id = field.id := (List.mem_cons.mp hid).resolve_right hrest
      exact ⟨offset, by rw [placeFields, placeFields_of_notMem _ hrest, hself,
        Function.update_self]⟩

/-- The loop writes the running sums into different fields. -/
theorem map_placeFields (placements : Placements) (offset : ℕ)
    (hids : (fields.map Field.id).Nodup) :
    (fields.map fun field ↦ (placeFields parent offset fields placements).1 field.id) =
      (runningSums offset (fields.map fun field ↦ field.ty.size)).1.map
        fun start ↦ some ⟨parent, start⟩ := by
  induction fields generalizing offset placements with
  | nil => rfl
  | cons field fields ih =>
    obtain ⟨hfirst, hrest⟩ := List.nodup_cons.mp hids
    have hhead : (placeFields parent offset (field :: fields) placements).1 field.id =
        some ⟨parent, offset⟩ := by
      rw [placeFields, placeFields_of_notMem _ hfirst, Function.update_self]
    rw [List.map_cons, hhead]
    exact congrArg (some ⟨parent, offset⟩ :: ·) (ih _ _ hrest)

end Placing

theorem map_id_toFields (sizes : String → ℕ) (fields : List FieldExpr) :
    (toFields sizes fields).map Field.id = fields.map FieldExpr.id := by
  simp only [toFields, List.map_map, Function.comp_def]

section Later

variable {later earlier : List Definition} {definition : Definition} {id : ℕ}

theorem placements_cons_of_notMem (hid : id ∉ definition.fields.map FieldExpr.id) :
    placements (definition :: earlier) id = placements earlier id := by
  cases definition with
  | struct name fields => exact placeFields_of_notMem 0 (by rwa [map_id_toFields])
  | typedef name target attrs => rfl
  | enum name cases underlying => rfl

theorem placements_cons_of_mem (hid : id ∈ definition.fields.map FieldExpr.id) :
    ∃ start, placements (definition :: earlier) id = some ⟨definition.name, start⟩ := by
  cases definition with
  | struct name fields => exact placeFields_of_mem 0 (by rwa [map_id_toFields])
  | typedef name target attrs => exact absurd hid List.not_mem_nil
  | enum name cases underlying => exact absurd hid List.not_mem_nil

/-- A field keeps what stands in it if no later structure takes it. -/
theorem placements_of_unshared
    (hid : ∀ definition ∈ later, id ∉ definition.fields.map FieldExpr.id) :
    placements (later ++ earlier) id = placements earlier id := by
  induction later with
  | nil => rfl
  | cons definition later ih =>
    obtain ⟨hfirst, hrest⟩ := List.forall_mem_cons.mp hid
    rw [← ih hrest]
    exact placements_cons_of_notMem hfirst

/-- A field that later structures take has one of them as its parent. -/
theorem placements_of_shared
    (hid : ∃ definition ∈ later, id ∈ definition.fields.map FieldExpr.id) :
    ∃ definition ∈ later, ∃ start,
      placements (later ++ earlier) id = some ⟨definition.name, start⟩ := by
  induction later with
  | nil => simp at hid
  | cons definition later ih =>
    by_cases hfirst : id ∈ definition.fields.map FieldExpr.id
    · exact ⟨definition, List.mem_cons_self, placements_cons_of_mem hfirst⟩
    · obtain ⟨other, hother, hmem⟩ := hid
      have hlater : other ∈ later :=
        (List.mem_cons.mp hother).resolve_left fun heq ↦ hfirst (heq ▸ hmem)
      obtain ⟨owner, howner, start, hwritten⟩ := ih ⟨other, hlater, hmem⟩
      exact ⟨owner, List.mem_cons_of_mem _ howner, start,
        (placements_cons_of_notMem hfirst).trans hwritten⟩

theorem Scoped.of_append (hscoped : Scoped (later ++ earlier)) : Scoped earlier := by
  induction later with
  | nil => exact hscoped
  | cons definition later ih => exact ih hscoped.2.2.2

/-- A later definition has another name. -/
theorem Scoped.name_ne (hscoped : Scoped (later ++ definition :: earlier)) :
    ∀ other ∈ later, other.name ≠ definition.name := by
  induction later with
  | nil => exact List.forall_mem_nil _
  | cons first later ih =>
    refine List.forall_mem_cons.mpr ⟨fun heq ↦ hscoped.1.2 ?_, ih hscoped.2.2.2⟩
    exact heq ▸ List.mem_map_of_mem (List.mem_append_right later List.mem_cons_self)

/-- In the end the fields of a structure hold its own running sums exactly if no later structure
takes one of them. -/
theorem placements_eq_iff {name : String} {fields : List FieldExpr}
    (hscoped : Scoped (later ++ .struct name fields :: earlier)) {starts : List ℕ} :
    ((toFields (sizes earlier) fields).map fun field ↦
          placements (later ++ .struct name fields :: earlier) field.id) =
        starts.map (fun start ↦ some ⟨name, start⟩) ↔
      Unshared later fields ∧ starts =
        (runningSums 0 ((toFields (sizes earlier) fields).map fun field ↦ field.ty.size)).1 := by
  by_cases hunshared : Unshared later fields
  · have hown : ((toFields (sizes earlier) fields).map fun field ↦
        placements (later ++ .struct name fields :: earlier) field.id) =
        (runningSums 0 ((toFields (sizes earlier) fields).map fun field ↦ field.ty.size)).1.map
          fun start ↦ some ⟨name, start⟩ := by
      rw [← map_placeFields (placements earlier) 0
        (by rw [map_id_toFields]; exact hscoped.of_append.2.2.1.2)]
      refine List.map_congr_left fun field hfield ↦ ?_
      obtain ⟨expr, hexpr, rfl⟩ := List.mem_map.mp hfield
      exact placements_of_unshared fun definition hdefinition ↦
        hunshared definition hdefinition expr hexpr
    have hinj : Function.Injective fun start : ℕ ↦ some (Placement.mk name start) :=
      fun _ _ heq ↦ (Placement.mk.inj (Option.some.inj heq)).2
    rw [hown, (List.map_injective_iff.mpr hinj).eq_iff, eq_comm]
    exact (and_iff_right hunshared).symm
  · refine iff_of_false (fun hwritten ↦ hunshared ?_) fun h ↦ hunshared h.1
    intro definition hdefinition field hfield hshared
    obtain ⟨owner, howner, start, hlast⟩ : ∃ owner ∈ later, ∃ start,
        placements (later ++ .struct name fields :: earlier) field.id =
          some ⟨owner.name, start⟩ := placements_of_shared ⟨definition, hdefinition, hshared⟩
    have hmem : placements (later ++ .struct name fields :: earlier) field.id ∈
        (starts.map fun start ↦ some (Placement.mk name start)) :=
      hwritten ▸ List.mem_map_of_mem (List.mem_map_of_mem hfield)
    obtain ⟨own, -, hown⟩ := List.mem_map.mp hmem
    rw [hlast] at hown
    exact hscoped.name_ne owner howner (Placement.mk.inj (Option.some.inj hown)).1.symm

end Later

/-! ### The text for assembly -/

theorem Field.asmStr_eq_iff {placements : Placements} {field : Field} {parent : String}
    {start : ℕ} :
    field.asmStr placements = some (label parent field.name, start) ↔
      placements field.id = some ⟨parent, start⟩ := by
  rw [Field.asmStr, Option.map_eq_some_iff]
  constructor
  · rintro ⟨⟨other, offset⟩, hwritten, hline⟩
    obtain ⟨hlabel, rfl⟩ := Prod.mk.inj hline
    rw [label, label, String.append_left_inj, String.append_left_inj] at hlabel
    obtain rfl : other = parent := hlabel
    exact hwritten
  · exact fun hwritten ↦ ⟨_, hwritten, rfl⟩

/-- The text has the labels of a structure at some places exactly if the fields hold them. -/
theorem mapM_asmStr_iff {placements : Placements} {parent : String} {fields : List Field}
    {starts : List ℕ} (hlength : starts.length = fields.length) :
    fields.mapM (Field.asmStr placements) =
        some ((fields.map fun field ↦ label parent field.name).zip starts) ↔
      (fields.map fun field ↦ placements field.id) =
        starts.map fun start ↦ some ⟨parent, start⟩ := by
  induction fields generalizing starts with
  | nil =>
    rw [List.eq_nil_of_length_eq_zero hlength]
    exact iff_of_true rfl rfl
  | cons field fields ih =>
    obtain _ | ⟨start, starts⟩ := starts
    · cases hlength
    · rw [List.map_cons, List.map_cons, List.map_cons, List.cons.injEq, ← Field.asmStr_eq_iff,
        ← ih (Nat.succ.inj hlength), List.mapM_cons, List.zip_cons_cons]
      cases field.asmStr placements <;> cases fields.mapM (Field.asmStr placements) <;> simp

/-! ### Two layouts of one structure -/

theorem map_fst_fieldLayouts (abi : Abi) (sizes : String → ℕ) (layouts : String → Layout)
    (fields : List FieldExpr) :
    (fieldLayouts abi sizes layouts fields).map Prod.fst =
      (toFields sizes fields).map fun field ↦ field.ty.size := by
  simp only [fieldLayouts, toFields, List.map_map, Function.comp_def]

/-- Assembly and C agree on a structure exactly if its sizes add up to its layout, and no later
structure takes its fields. -/
theorem coherent_iff (abi : Abi) {later earlier : List Definition} {name : String}
    {fields : List FieldExpr} (hscoped : Scoped (later ++ .struct name fields :: earlier)) :
    Coherent abi later earlier name fields ↔ Tight abi earlier fields ∧ Unshared later fields := by
  set members := fieldLayouts abi (sizes earlier) (layouts abi earlier) fields with hmembers
  have hsums := map_fst_fieldLayouts abi (sizes earlier) (layouts abi earlier) fields
  have hlayout := cLayout_eq abi hscoped.of_append
  have hlabels : (fields.map fun field ↦ label name field.name) =
      (toFields (sizes earlier) fields).map fun field ↦ label name field.name := by
    simp only [toFields, List.map_map, Function.comp_def]
  have hlength : (memberOffsets (members.map Prod.snd)).length =
      (toFields (sizes earlier) fields).length := by
    simp only [length_memberOffsets, hmembers, fieldLayouts, toFields, List.length_map]
  have hsize : Struct.size ⟨name, toFields (sizes earlier) fields⟩ =
      (runningSums 0 (members.map Prod.fst)).2 := by
    rw [hsums]
    exact placeFields_snd name 0 _ _
  have halign : ∀ entry ∈ members, 0 < entry.2.align := by
    intro entry hentry
    obtain ⟨field, -, rfl⟩ := List.mem_map.mp hentry
    exact field.type.align_pos abi (layouts_align_pos abi earlier)
  have hsame : Coherent abi later earlier name fields ↔
      Struct.asmStr (placements (later ++ .struct name fields :: earlier))
          ⟨name, toFields (sizes earlier) fields⟩ =
        some (((toFields (sizes earlier) fields).map fun field ↦ label name field.name).zip
          (memberOffsets (members.map Prod.snd))) ∧
      (structLayout (members.map Prod.snd)).size = (runningSums 0 (members.map Prod.fst)).2 := by
    simp only [Coherent, hlayout, ← hlabels, ← hsize, Option.some.injEq, Prod.mk.injEq]
    constructor
    · rintro ⟨offsets, hasm, rfl, hwhole⟩
      exact ⟨hasm, hwhole⟩
    · rintro ⟨hasm, hwhole⟩
      exact ⟨_, hasm, rfl, hwhole⟩
  rw [hsame, Struct.asmStr, mapM_asmStr_iff hlength, placements_eq_iff hscoped, ← hsums,
    and_assoc, layout_eq_sums_iff halign, runningSums_snd, zero_add]
  exact and_comm

/-- The field of `a_t` that `b_t` took is written for `b_t`. -/
example :
    let shared : FieldExpr := ⟨0, "x", .builtin .byte⟩
    Struct.asmStr
        (placements [.struct "b_t" [⟨1, "y", .builtin .word⟩, shared], .struct "a_t" [shared]])
        ⟨"a_t", toFields (sizes []) [shared]⟩ =
      some [("b_t__x", 8)] := rfl

/-- The smallest power of two that holds a size of at most 16. -/
def promote (size : ℕ) : ℕ :=
  if size ≤ 1 then 1 else if size ≤ 2 then 2 else if size ≤ 4 then 4 else if size ≤ 8 then 8 else 16

/-- The rules of clang on x86-64: an atomic type of at most 16 bytes is enlarged to a power of two
and aligned to it. Of the attributes only the mode of one byte is given a meaning. -/
def clang : Abi where
  atomic layout := if layout.size ≤ 16 then ⟨promote layout.size, promote layout.size⟩ else layout
  attributes names layout := if names = ["mode(QI)"] then ⟨1, 1⟩ else layout
  atomic_align_pos layout halign := by
    unfold promote
    split_ifs <;> first | exact halign | exact Nat.succ_pos _
  attributes_align_pos names layout halign := by
    split_ifs
    · exact Nat.succ_pos _
    · exact halign

/-- A `Typedef` with the name that it declares first, as it is written in the scripts. -/
def typedefOf (name : String) (target : TypeExpr) (attrs : List String) : Definition :=
  .typedef name target attrs

/-- A byte that was recorded as a word may stand before a word. -/
example : Tight clang [typedefOf "small_t" (.builtin .word) ["mode(QI)"]]
    [⟨0, "small", .declared "small_t"⟩, ⟨1, "value", .builtin .word⟩] := by decide

/-- The definitions of `seff_types.py` before that of `seff_cont_t`. -/
def beforeCont : List Definition :=
  [.struct "seff_request_t"
      [⟨0, "effect", .declared "effect_id"⟩, ⟨1, "payload", .ptrNamed (.plain "void")⟩],
    typedefOf "effect_id" (.builtin .word) [], typedefOf "effect_set" (.builtin .word) []]

/-- The fields of `seff_cont_t` for segmented stacks. -/
def seffCont : List FieldExpr :=
  [⟨2, "stack_top", .ptrNamed (.plain "void")⟩,
    ⟨3, "current_coroutine", .ptrNamed (.plain "void")⟩, ⟨4, "rsp", .ptrNamed (.plain "void")⟩,
    ⟨5, "rbp", .ptrNamed (.plain "void")⟩, ⟨6, "ip", .ptrNamed (.plain "void")⟩,
    ⟨7, "rbx", .ptrNamed (.plain "void")⟩, ⟨8, "r12", .ptrNamed (.plain "void")⟩,
    ⟨9, "r13", .ptrNamed (.plain "void")⟩, ⟨10, "r14", .ptrNamed (.plain "void")⟩,
    ⟨11, "r15", .ptrNamed (.plain "void")⟩]

/-- The definitions of `seff_types.py` between those of `seff_cont_t` and of a coroutine. -/
def afterCont : List Definition :=
  [typedefOf "seff_frame_ptr_t" (.ptr (.declared "seff_stack_segment_t")) [],
    .struct "seff_stack_segment_t"
      [⟨12, "prev", .ptrNamed (.tagged "_seff_stack_segment_t")⟩,
        ⟨13, "next", .ptrNamed (.tagged "_seff_stack_segment_t")⟩, ⟨14, "size", .builtin .sizeT⟩,
        ⟨15, "canary", .ptrNamed (.plain "void")⟩, ⟨16, "padding", .arr (.builtin .byte) 128⟩],
    .enum "seff_coroutine_state_t" [⟨"FINISHED", none⟩, ⟨"PAUSED", none⟩, ⟨"RUNNING", none⟩] none]

/-- The fields of `seff_coroutine_t`. -/
def seffCoroutine : List FieldExpr :=
  [⟨17, "frame_ptr", .declared "seff_frame_ptr_t"⟩, ⟨18, "resume_point", .declared "seff_cont_t"⟩,
    ⟨19, "state", .declared "seff_coroutine_state_t"⟩,
    ⟨20, "parent_coroutine", .ptrNamed (.tagged "_seff_coroutine_t")⟩,
    ⟨21, "handled_effects", .declared "effect_set"⟩]

theorem coherent_iff_seffTypes :
    Coherent clang (.struct "seff_coroutine_t" seffCoroutine :: afterCont) beforeCont
        "seff_cont_t" seffCont ∧
      Coherent clang [] (afterCont ++ .struct "seff_cont_t" seffCont :: beforeCont)
        "seff_coroutine_t" seffCoroutine := by
  constructor
  · exact (coherent_iff clang (by decide)).mpr (by decide)
  · exact (coherent_iff clang (by decide)).mpr (by decide)

/-- A byte before a word: C aligns the word. -/
theorem not_coherent :
    let fields : List FieldExpr := [⟨0, "tag", .builtin .byte⟩, ⟨1, "value", .builtin .word⟩]
    let struct : Struct := ⟨"tagged_t", toFields (sizes []) fields⟩
    struct.asmStr (placements [.struct "tagged_t" fields]) =
        some [("tagged_t__tag", 0), ("tagged_t__value", 1)] ∧ struct.ty.size = 9 ∧
      cLayout clang [] struct = some ([("tagged_t__tag", 0), ("tagged_t__value", 8)], 16) ∧
      ¬ Coherent clang [] [] "tagged_t" fields := by
  have hlayout : cLayout clang [] ⟨"tagged_t", toFields (sizes [])
      [⟨0, "tag", .builtin .byte⟩, ⟨1, "value", .builtin .word⟩]⟩ =
        some ([("tagged_t__tag", 0), ("tagged_t__value", 8)], 16) := by decide
  refine ⟨rfl, rfl, hlayout, ?_⟩
  rintro ⟨offsets, -, hcoherent⟩
  obtain ⟨-, hsize⟩ := Prod.mk.inj (Option.some.inj (hlayout.symm.trans hcoherent))
  exact absurd hsize (by decide)

end Libseff.Decls
