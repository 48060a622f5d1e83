import Libseff.Foundation.StructLayout

/-!
# Reading declarations of C

A declaration names a type and wraps the declared name into a declarator. The brackets and the
parentheses behind the name bind tighter than the stars before it, so the reader (`readDeclarator`)
reads a declarator from the outside and applies what it finds to the type from the inside. White
space only separates tokens, and the names of types are told from other identifiers, as C compilers
do. A header is read declaration by declaration (`declare`), and
each gives the layout of the name it declares.
-/

set_option autoImplicit false
set_option relaxedAutoImplicit false

namespace Libseff.Foundation.CDeclarations

/-- What a declaration is written with. -/
inductive Token where
  | typeName (name : String)
  | identifier (name : String)
  | number (value : ℕ)
  | typedef
  | struct
  | atomic
  | star
  | openBracket
  | closeBracket
  | openParen
  | closeParen
  | openBrace
  | closeBrace
  | comma
  | semicolon
  | attributes (names : List String)
  deriving DecidableEq

/-- A type without a declarator: a name, or `struct` and a tag. -/
inductive TypeName where
  | plain (name : String)
  | tagged (tag : String)
  deriving DecidableEq

/-- The types of C that declarators build. -/
inductive CType where
  | named (name : TypeName)
  | pointer (target : CType)
  | array (element : CType) (length : ℕ)
  | function (parameters : List CType) (result : CType)
  | atomic (type : CType)

/-- The type with the qualifier `_Atomic`, which counts once. -/
def CType.qualify : CType → CType
  | .atomic type => .atomic type
  | type => .atomic type

/-- The tokens of a type name. -/
def TypeName.tokens : TypeName → List Token
  | .plain name => [.typeName name]
  | .tagged tag => [.struct, .identifier tag]

/-! ### Declarators -/

/-- What a declarator declares: its name, if it has one, and the type it makes of another. -/
structure Declarator where
  name : Option String
  apply : CType → CType

/-- The specifiers before a declarator, and what follows them. -/
def readSpecifiers : List Token → Option (CType × List Token)
  | .atomic :: rest => (readSpecifiers rest).map fun (type, rest) ↦ (type.qualify, rest)
  | .typeName name :: rest => some (.named (.plain name), rest)
  | .struct :: .identifier tag :: rest => some (.named (.tagged tag), rest)
  | _ => none

/-- A token that a specifier starts with. -/
def Token.startsType : Token → Bool
  | .atomic | .typeName _ | .struct => true
  | _ => false

/-- A parenthesis opens parameters if nothing or a type follows, and groups a declarator else. -/
def opensParameters : List Token → Bool
  | .closeParen :: _ => true
  | token :: _ => token.startsType
  | [] => false

mutual

/-- A declarator, and what follows it. -/
def readDeclarator : ℕ → List Token → Option (Declarator × List Token)
  | 0, _ => none
  | fuel + 1, .star :: rest => do
    let (inner, rest) ← readDeclarator fuel rest
    some ({ inner with apply := inner.apply ∘ .pointer }, rest)
  | fuel + 1, .identifier name :: rest => do
    let (suffix, rest) ← readSuffixes fuel rest
    some (⟨some name, suffix⟩, rest)
  | fuel + 1, .openParen :: rest =>
    if opensParameters rest then do
      let (suffix, rest) ← readSuffixes fuel (.openParen :: rest)
      some (⟨none, suffix⟩, rest)
    else do
      let (inner, rest) ← readDeclarator fuel rest
      match rest with
      | .closeParen :: rest => do
        let (suffix, rest) ← readSuffixes fuel rest
        some ({ inner with apply := inner.apply ∘ suffix }, rest)
      | _ => none
  | fuel + 1, rest => do
    let (suffix, rest) ← readSuffixes fuel rest
    some (⟨none, suffix⟩, rest)

/-- The lengths and parameters behind a name, the first of which is the outermost of the type. -/
def readSuffixes : ℕ → List Token → Option ((CType → CType) × List Token)
  | 0, _ => none
  | fuel + 1, .openBracket :: .number length :: .closeBracket :: rest =>
    if length = 0 then none
    else do
      let (inner, rest) ← readSuffixes fuel rest
      some (fun type ↦ .array (inner type) length, rest)
  | fuel + 1, .openParen :: .closeParen :: rest => do
    let (inner, rest) ← readSuffixes fuel rest
    some (fun type ↦ .function [] (inner type), rest)
  | fuel + 1, .openParen :: rest => do
    let (parameters, rest) ← readParameters fuel rest
    let (inner, rest) ← readSuffixes fuel rest
    some (fun type ↦ .function parameters (inner type), rest)
  | _ + 1, .openBracket :: _ => none
  | _ + 1, rest => some (id, rest)

/-- The types of parameters up to the parenthesis that closes them. -/
def readParameters : ℕ → List Token → Option (List CType × List Token)
  | 0, _ => none
  | fuel + 1, tokens => do
    let (type, rest) ← readSpecifiers tokens
    let (declarator, rest) ← readDeclarator fuel rest
    match rest with
    | .closeParen :: rest => some ([declarator.apply type], rest)
    | .comma :: rest => do
      let (parameters, rest) ← readParameters fuel rest
      some (declarator.apply type :: parameters, rest)
    | _ => none

end

/-- A declared name, its type, and what follows the declarator. -/
def readDeclaration (tokens : List Token) : Option (String × CType × List Token) := do
  let (type, rest) ← readSpecifiers tokens
  let (declarator, rest) ← readDeclarator (tokens.length + 1) rest
  let name ← declarator.name
  some (name, declarator.apply type, rest)

/-- A declaration at the end of a file: a structure with a tag and a name, or a name for a type. -/
inductive Declaration where
  | structure (tag : String) (members : List (String × CType)) (name : String)
  | alias (name : String) (type : CType) (attributes : List String)

/-- The members of a structure up to the brace that closes it. -/
def readMembers : ℕ → List Token → Option (List (String × CType) × List Token)
  | _, .closeBrace :: rest => some ([], rest)
  | 0, _ => none
  | fuel + 1, tokens => do
    let (name, type, rest) ← readDeclaration tokens
    match rest with
    | .semicolon :: rest => do
      let (members, rest) ← readMembers fuel rest
      some ((name, type) :: members, rest)
    | _ => none

/-- One `typedef`. -/
def readTypedef : List Token → Option Declaration
  | .typedef :: .struct :: .identifier tag :: .openBrace :: rest => do
    let (members, rest) ← readMembers rest.length rest
    match rest with
    | [.identifier name, .semicolon] => some (.structure tag members name)
    | _ => none
  | .typedef :: rest => do
    let (name, type, rest) ← readDeclaration rest
    match rest with
    | [.semicolon] => some (.alias name type [])
    | [.attributes names, .semicolon] => some (.alias name type names)
    | _ => none
  | _ => none

/-- A length behind a name. -/
def brackets (length : ℕ) : List Token := [.openBracket, .number length, .closeBracket]

/-! ### Layouts -/

/-- The layout of a pointer of 64 bits. -/
def pointerLayout : Layout := ⟨8, 8⟩

/-- What a compiler decides of a layout: how `_Atomic` and the attributes of a `typedef` change it.
An attribute may make a type larger or smaller. -/
structure Abi where
  atomic : Layout → Layout
  attributes : List String → Layout → Layout
  atomic_align_pos : ∀ layout, 0 < layout.align → 0 < (atomic layout).align
  attributes_align_pos : ∀ names layout, 0 < layout.align → 0 < (attributes names layout).align

/-- The layouts of the names declared so far. A name without one is unknown or incomplete. -/
abbrev Env := TypeName → Option Layout

/-- The layout of a type. -/
def CType.layout (abi : Abi) (env : Env) : CType → Option Layout
  | .named name => env name
  | .pointer _ => some pointerLayout
  | .array element length =>
    (element.layout abi env).map fun unit ↦ ⟨length * unit.size, unit.align⟩
  | .function _ _ => none
  | .atomic type => (type.layout abi env).map abi.atomic

/-- The layouts of the members of a structure. -/
def memberLayouts (abi : Abi) (env : Env) (members : List (String × CType)) :
    Option (List Layout) :=
  members.mapM fun member ↦ member.2.layout abi env

/-- The names after one declaration. -/
def declare (abi : Abi) (env : Env) : Declaration → Option Env
  | .structure tag members name => do
    let layouts ← memberLayouts abi env members
    let whole := some (structLayout layouts)
    some (Function.update (Function.update env (.tagged tag) whole) (.plain name) whole)
  | .alias name type names => do
    let layout ← type.layout abi env
    let whole := if names = [] then layout else abi.attributes names layout
    some (Function.update env (.plain name) (some whole))

end Libseff.Foundation.CDeclarations
