import Libseff.Foundation.CDeclarations

/-!
# The declaration generator

`decls/generate.py` keeps data types coherent between C and assembly. A type knows how it is
declared and which size it has; a `Struct` adds up the sizes of its fields, writes the declaration
for C, and writes the sum at each field for assembly. The texts are lists of tokens, for white
space only separates them. The contents of a file are a list of definitions, the last one first,
and an expression for a type is what a definition is called with. A `Defn` declares no type and is
left out.

A `Field` is an object, which a program may give to several structures: each `Struct` writes its
parent and its offset into the object, and the text for assembly is made from what stands there
after all definitions. The identity of a field is a number here, and what is written into the
objects is a state that the definitions pass on (`Placements`).
-/

set_option autoImplicit false
set_option relaxedAutoImplicit false

namespace Libseff.Decls

open Libseff.Foundation.CDeclarations

/-! ### Types -/

/-- A named type without a known size. -/
structure UnsizedTy where
  declare : List Token → List Token

/-- A sized type. -/
structure Ty extends UnsizedTy where
  size : ℕ

def unsizedNamedTy (name : TypeName) : UnsizedTy := ⟨fun s ↦ name.tokens ++ s⟩

def namedTy (name : String) (size : ℕ) : Ty := ⟨⟨fun s ↦ .typeName name :: s⟩, size⟩

/-- `Architecture(64)`: its three types. -/
def wordType : Ty := namedTy "uint64_t" 8

def halfWordType : Ty := namedTy "uint32_t" 4

def sizeT : Ty := namedTy "size_t" 8

def byte : Ty := namedTy "uint8_t" 1

def void : Ty := namedTy "void" 0

def ptr (ty : UnsizedTy) : Ty := ⟨⟨fun s ↦ ty.declare (.star :: s)⟩, wordType.size⟩

def arr (ty : Ty) (size : ℕ) : Ty := ⟨⟨fun s ↦ ty.declare (s ++ brackets size)⟩, size * ty.size⟩

def atomic (ty : Ty) : Ty := ⟨⟨fun s ↦ .atomic :: ty.declare s⟩, ty.size⟩

/-! ### Definitions of a file -/

/-- A line of the header: a part of a declaration, or the definition of a constant. -/
inductive Line where
  | code (tokens : List Token)
  | define (name type : String) (value : ℤ)

/-- The tokens of the lines that the preprocessor does not take. -/
def codeOf (lines : List Line) : List Token :=
  lines.flatMap fun
    | .code tokens => tokens
    | .define .. => []

/-- A `Field` object, without the attributes that a `Struct` writes. -/
structure Field where
  id : ℕ
  name : String
  ty : Ty

def Field.cStr (field : Field) : Line :=
  .code (field.ty.declare [.identifier field.name] ++ [.semicolon])

/-- What a `Struct` writes into a field: the name of the parent, and the offset. -/
structure Placement where
  parent : String
  offset : ℕ

/-- What stands in the field objects, if anything was written. -/
abbrev Placements := ℕ → Option Placement

/-- The label of a field in assembly. -/
def label (parent name : String) : String := parent ++ "__" ++ name

/-- `Field.asm_str`, which asserts that the field has a parent. -/
def Field.asmStr (placements : Placements) (field : Field) : Option (String × ℕ) :=
  (placements field.id).map fun placement ↦ (label placement.parent field.name, placement.offset)

structure Struct where
  name : String
  fields : List Field

/-- The loop of `Struct.__init__`: what it writes into the fields, and the size. -/
def placeFields (parent : String) : ℕ → List Field → Placements → Placements × ℕ
  | offset, [], placements => (placements, offset)
  | offset, field :: fields, placements =>
    placeFields parent (offset + field.ty.size) fields
      (Function.update placements field.id (some ⟨parent, offset⟩))

/-- What stands in the fields after `Struct.__init__`. -/
def Struct.place (struct : Struct) (placements : Placements) : Placements :=
  (placeFields struct.name 0 struct.fields placements).1

def Struct.size (struct : Struct) : ℕ :=
  (placeFields struct.name 0 struct.fields fun _ ↦ none).2

def Struct.ty (struct : Struct) : Ty := namedTy struct.name struct.size

def Struct.cStr (struct : Struct) : List Line :=
  .code [.typedef, .struct, .identifier ("_" ++ struct.name), .openBrace] ::
    struct.fields.map Field.cStr ++
      [.code [.closeBrace, .identifier struct.name, .semicolon]]

def Struct.asmStr (placements : Placements) (struct : Struct) : Option (List (String × ℕ)) :=
  struct.fields.mapM (Field.asmStr placements)

structure Typedef where
  name : String
  target : Ty
  attrs : List String

def Typedef.ty (typedef : Typedef) : Ty := namedTy typedef.name typedef.target.size

def Typedef.cStr (typedef : Typedef) : List Line :=
  if typedef.attrs.length ≠ 0 then
    [.code (.typedef :: typedef.target.declare [.identifier typedef.name] ++
      [.attributes typedef.attrs, .semicolon])]
  else [.code (.typedef :: typedef.target.declare [.identifier typedef.name] ++ [.semicolon])]

/-- A case of an enumeration, which may set the counter. -/
structure Case where
  name : String
  index : Option ℤ

/-- The loop of `Enum.__init__`: the cases with their values. -/
def numberCases : ℤ → List Case → List (String × ℤ)
  | _, [] => []
  | counter, case :: cases =>
    let counter := case.index.getD counter
    (case.name, counter) :: numberCases (counter + 1) cases

structure Enum where
  name : String
  cases : List (String × ℤ)
  underlying : Ty

def Enum.ty (enum : Enum) : Ty := namedTy enum.name enum.underlying.size

def Enum.cStr (enum : Enum) : List Line :=
  .code (.typedef :: enum.underlying.declare [.identifier enum.name] ++ [.semicolon]) ::
    enum.cases.map fun (caseName, index) ↦ .define caseName enum.name index

def Enum.asmStr (enum : Enum) : List (String × ℤ) :=
  enum.cases.map fun (caseName, index) ↦ (label enum.name caseName, index)

/-! ### Expressions -/

/-- The types that are there from the start. -/
inductive Builtin where
  | byte
  | halfWord
  | word
  | sizeT
  deriving DecidableEq

def Builtin.name : Builtin → String
  | .byte => "uint8_t"
  | .halfWord => "uint32_t"
  | .word => "uint64_t"
  | .sizeT => "size_t"

def Builtin.ty : Builtin → Ty
  | .byte => Decls.byte
  | .halfWord => halfWordType
  | .word => wordType
  | .sizeT => Decls.sizeT

/-- How the type of a field is written: with the type of an earlier definition, with a pointer to a
type without a size (`void`, or a structure by its tag), or by the functions above. -/
inductive TypeExpr where
  | builtin (type : Builtin)
  | declared (name : String)
  | ptrNamed (name : TypeName)
  | ptr (target : TypeExpr)
  | arr (element : TypeExpr) (length : ℕ)
  | atomic (type : TypeExpr)

/-- The value of an expression, with the sizes that the definitions have recorded. -/
def TypeExpr.ty (sizes : String → ℕ) : TypeExpr → Ty
  | .builtin type => type.ty
  | .declared name => namedTy name (sizes name)
  | .ptrNamed name => Decls.ptr (unsizedNamedTy name)
  | .ptr target => Decls.ptr (target.ty sizes).toUnsizedTy
  | .arr element length => Decls.arr (element.ty sizes) length
  | .atomic type => Decls.atomic (type.ty sizes)

example (sizes : String → ℕ) :
    (TypeExpr.ptrNamed (.plain "void")).ty sizes = ptr void.toUnsizedTy := rfl

/-- A `Field` object, with the arguments of its constructor. -/
structure FieldExpr where
  id : ℕ
  name : String
  type : TypeExpr

/-- A call of one of the constructors. -/
inductive Definition where
  | struct (name : String) (fields : List FieldExpr)
  | typedef (name : String) (target : TypeExpr) (attrs : List String)
  | enum (name : String) (cases : List Case) (underlying : Option TypeExpr)

def Definition.name : Definition → String
  | .struct name _ => name
  | .typedef name _ _ => name
  | .enum name _ _ => name

/-- The fields of a `Struct`. -/
def toFields (sizes : String → ℕ) (fields : List FieldExpr) : List Field :=
  fields.map fun field ↦ ⟨field.id, field.name, field.type.ty sizes⟩

/-- The type under an `Enum`, which is a word if none is given. -/
def underlyingOf (underlying : Option TypeExpr) : TypeExpr := underlying.getD (.builtin .word)

def toEnum (sizes : String → ℕ) (name : String) (cases : List Case)
    (underlying : Option TypeExpr) : Enum :=
  ⟨name, numberCases 0 cases, (underlyingOf underlying).ty sizes⟩

/-- The type of the definition. -/
def Definition.ty (sizes : String → ℕ) : Definition → Ty
  | .struct name fields => Struct.ty ⟨name, toFields sizes fields⟩
  | .typedef name target attrs => Typedef.ty ⟨name, target.ty sizes, attrs⟩
  | .enum name cases underlying => (toEnum sizes name cases underlying).ty

/-- The lines of the definition in the header. -/
def Definition.cStr (sizes : String → ℕ) : Definition → List Line
  | .struct name fields => Struct.cStr ⟨name, toFields sizes fields⟩
  | .typedef name target attrs => Typedef.cStr ⟨name, target.ty sizes, attrs⟩
  | .enum name cases underlying => (toEnum sizes name cases underlying).cStr

/-- The sizes recorded by the definitions so far. -/
def sizes : List Definition → String → ℕ
  | [], _ => 0
  | definition :: earlier, name =>
    if name = definition.name then (definition.ty (sizes earlier)).size else sizes earlier name

/-- What stands in the field objects after the definitions so far. -/
def placements : List Definition → Placements
  | [] => fun _ ↦ none
  | .struct name fields :: earlier =>
    Struct.place ⟨name, toFields (sizes earlier) fields⟩ (placements earlier)
  | _ :: earlier => placements earlier

/-! ### Scopes -/

/-- The expression names earlier definitions only, and its arrays have elements. -/
def TypeExpr.Scoped (names : List String) : TypeExpr → Prop
  | .declared name => name ∈ names
  | .ptr target => target.Scoped names
  | .arr element length => 0 < length ∧ element.Scoped names
  | .atomic type => type.Scoped names
  | _ => True

instance TypeExpr.decidableScoped (names : List String) :
    ∀ expr : TypeExpr, Decidable (expr.Scoped names)
  | .builtin _ => isTrue trivial
  | .declared name => inferInstanceAs (Decidable (name ∈ names))
  | .ptrNamed _ => isTrue trivial
  | .ptr target => target.decidableScoped names
  | .arr element length =>
    have := element.decidableScoped names
    inferInstanceAs (Decidable (0 < length ∧ _))
  | .atomic type => type.decidableScoped names

/-- The expressions of a definition. -/
def Definition.exprs : Definition → List TypeExpr
  | .struct _ fields => fields.map FieldExpr.type
  | .typedef _ target _ => [target]
  | .enum _ _ underlying => [underlyingOf underlying]

/-- The fields of a definition. -/
def Definition.fields : Definition → List FieldExpr
  | .struct _ fields => fields
  | .typedef .. => []
  | .enum .. => []

/-- The names that a header starts with. -/
def builtinNames : List String :=
  [Builtin.byte.name, Builtin.halfWord.name, Builtin.word.name, Builtin.sizeT.name]

/-- Each definition has a new name and refers to earlier ones only, and the members of a structure
have different names, so that they are different objects. -/
def Scoped : List Definition → Prop
  | [] => True
  | definition :: earlier =>
    (definition.name ∉ builtinNames ∧ definition.name ∉ earlier.map Definition.name) ∧
      (∀ expr ∈ definition.exprs, expr.Scoped (earlier.map Definition.name)) ∧
      ((definition.fields.map FieldExpr.name).Nodup ∧
        (definition.fields.map FieldExpr.id).Nodup) ∧ Scoped earlier

instance decidableScoped : ∀ contents, Decidable (Scoped contents)
  | [] => isTrue trivial
  | _ :: earlier =>
    have := decidableScoped earlier
    inferInstanceAs (Decidable (_ ∧ _ ∧ _ ∧ _))

end Libseff.Decls
