import Libseff.Decls.LayoutCoherence

/-!
# Declarators of nested types

`ptr`, `arr`, `func` and `atomic` of `decls/generate.py` put their part to the text of a type that
is nested in them or around them. None of them writes a parenthesis that groups, so the text has no
more than the order of its parts (`declare_flat`), and C reads the parts behind the name first. What
it reads is what the nesting means where no star stands on an array or a function and `_Atomic` on
nothing but a name (`declaredAsMeant_iff`).
-/

set_option autoImplicit false
set_option relaxedAutoImplicit false

namespace Libseff.Decls

open Libseff.Foundation Libseff.Foundation.CDeclarations

/-- The loop of `func` over its arguments. -/
def argsStr : List Ty → List Token
  | [] => []
  | [argTy] => argTy.declare []
  | argTy :: args => argTy.declare [] ++ .comma :: argsStr args

def func (args : List Ty) (ret : Ty) : Ty :=
  ⟨⟨fun s ↦ ret.declare (s ++ .openParen :: (argsStr args ++ [.closeParen]))⟩, 0⟩

/-! ### Nestings -/

/-- A nesting of `named_ty`, `ptr`, `arr`, `func` and `atomic`. -/
inductive TypeTerm where
  | named (name : TypeName)
  | ptr (target : TypeTerm)
  | arr (element : TypeTerm) (length : ℕ)
  | func (args : List TypeTerm) (ret : TypeTerm)
  | atomic (type : TypeTerm)

namespace TypeTerm

mutual

/-- The value of a nesting, with the sizes that the names are given. -/
def ty (sizes : TypeName → ℕ) : TypeTerm → Ty
  | .named name => ⟨unsizedNamedTy name, sizes name⟩
  | .ptr target => Decls.ptr (target.ty sizes).toUnsizedTy
  | .arr element length => Decls.arr (element.ty sizes) length
  | .func args ret => Decls.func (tys sizes args) (ret.ty sizes)
  | .atomic type => Decls.atomic (type.ty sizes)

def tys (sizes : TypeName → ℕ) : List TypeTerm → List Ty
  | [] => []
  | arg :: args => arg.ty sizes :: tys sizes args

end

example (sizes : TypeName → ℕ) (name : String) :
    (named (.plain name)).ty sizes = namedTy name (sizes (.plain name)) := rfl

mutual

/-- The type that a nesting means, by the names of the functions. That C makes pointers of the
parameters that are arrays or functions is left out, as it is of the reader. -/
def denote : TypeTerm → CType
  | .named name => .named name
  | .ptr target => .pointer target.denote
  | .arr element length => .array element.denote length
  | .func args ret => .function (denotes args) ret.denote
  | .atomic type => type.denote.qualify

def denotes : List TypeTerm → List CType
  | [] => []
  | arg :: args => arg.denote :: denotes args

end

/-! ### Texts -/

mutual

/-- The parts of the declaration, in their order. -/
def flat : TypeTerm → Flat
  | .named name => .base 0 name 0
  | .ptr target => target.flat.addStar
  | .arr element length => .array element.flat length
  | .func args ret => .function (flats args) ret.flat
  | .atomic type => type.flat.addQualifier

def flats : List TypeTerm → List Flat
  | [] => []
  | arg :: args => arg.flat :: flats args

end

mutual

/-- No parenthesis groups the parts of the text. -/
theorem declare_flat (sizes : TypeName → ℕ) :
    ∀ (term : TypeTerm) (s : List Token), (term.ty sizes).declare s = term.flat.tokens s
  | .named name, s => (Flat.tokens_name name s).symm
  | .ptr target, s => by
    rw [flat, Flat.tokens_addStar, ← declare_flat sizes target]
    rfl
  | .arr element length, s => by
    rw [flat, Flat.tokens_array, ← declare_flat sizes element]
    rfl
  | .func args ret, s => by
    rw [flat, Flat.tokens_function, ← argsStr_flats sizes args, ← declare_flat sizes ret]
    rfl
  | .atomic type, s => by
    rw [flat, Flat.tokens_addQualifier, ← declare_flat sizes type]
    rfl

theorem argsStr_flats (sizes : TypeName → ℕ) :
    ∀ args : List TypeTerm, argsStr (tys sizes args) = Flat.parametersText (flats args)
  | [] => rfl
  | [arg] => by
    rw [flats, flats, Flat.parametersText_singleton, ← declare_flat sizes arg]
    rfl
  | arg :: next :: args => by
    rw [flats, flats, Flat.parametersText_cons, ← flats, ← argsStr_flats sizes (next :: args),
      ← declare_flat sizes arg]
    rfl

end

/-! ### Meanings -/

/-- An array or a function. -/
def Suffixed : TypeTerm → Prop
  | .arr .. => True
  | .func .. => True
  | _ => False

/-- The named type under nothing but `_Atomic`. -/
def baseName : TypeTerm → Option TypeName
  | .named name => some name
  | .atomic type => type.baseName
  | _ => none

mutual

/-- No pointer to an array or a function, `_Atomic` on a named type only, and no empty array. -/
def Ordered : TypeTerm → Prop
  | .named _ => True
  | .ptr target => target.Ordered ∧ ¬ target.Suffixed
  | .arr element length => 0 < length ∧ element.Ordered
  | .func args ret => AllOrdered args ∧ ret.Ordered
  | .atomic type => type.baseName ≠ none

def AllOrdered : List TypeTerm → Prop
  | [] => True
  | arg :: args => arg.Ordered ∧ AllOrdered args

end

theorem suffixed_denote : ∀ term : TypeTerm, term.denote.Suffixed ↔ term.Suffixed
  | .named _ => Iff.rfl
  | .ptr _ => Iff.rfl
  | .arr _ _ => Iff.rfl
  | .func _ _ => Iff.rfl
  | .atomic type =>
    ⟨fun hsuffixed ↦ type.denote.not_derived_qualify hsuffixed.derived, False.elim⟩

/-- A name under `_Atomic` is declared as it is meant. -/
theorem type_of_baseName : ∀ (term : TypeTerm) {name : TypeName}, term.baseName = some name →
    term.flat.type = some term.denote ∧
      (term.denote = .named name ∨ term.denote = .atomic (.named name))
  | .named name, other, hbase => by
    cases hbase
    exact ⟨rfl, Or.inl rfl⟩
  | .atomic type, name, hbase => by
    obtain ⟨htype, hdenote⟩ := type_of_baseName type hbase
    rw [flat, denote, Flat.type_addQualifier, htype]
    rcases hdenote with hdenote | hdenote <;> rw [hdenote] <;> exact ⟨rfl, Or.inr rfl⟩

/-- All other texts declare a pointer, an array or a function. -/
theorem derived_of_baseName : ∀ (term : TypeTerm) {type : CType}, term.baseName = none →
    term.flat.type = some type → type.Derived
  | .ptr target, type, hbase, htype => by
    rw [flat, Flat.type_addStar] at htype
    obtain ⟨inner, -, rfl⟩ := Option.map_eq_some_iff.mp htype
    exact inner.derived_addStar
  | .arr element length, type, hbase, htype => by
    rw [flat, Flat.type_array] at htype
    split_ifs at htype
    obtain ⟨inner, -, rfl⟩ := Option.map_eq_some_iff.mp htype
    trivial
  | .func args ret, type, hbase, htype => by
    rw [flat, Flat.type_function] at htype
    obtain ⟨types, -, hret⟩ := Option.bind_eq_some_iff.mp htype
    obtain ⟨inner, -, rfl⟩ := Option.map_eq_some_iff.mp hret
    trivial
  | .atomic term, type, hbase, htype => by
    rw [flat, Flat.type_addQualifier] at htype
    obtain ⟨inner, hinner, rfl⟩ := Option.map_eq_some_iff.mp htype
    exact CType.derived_addQualifier (derived_of_baseName term hbase hinner)

mutual

/-- The text declares the type that is meant where the order of its parts is the nesting. -/
theorem type_flat_iff : ∀ term : TypeTerm, term.flat.type = some term.denote ↔ term.Ordered
  | .named _ => ⟨fun _ ↦ trivial, fun _ ↦ rfl⟩
  | .ptr target => by
    rw [flat, denote, Ordered, Flat.type_addStar, Option.map_eq_some_iff, ← type_flat_iff target,
      ← suffixed_denote target]
    simp only [CType.addStar_eq_pointer_iff]
    constructor
    · rintro ⟨type, htype, rfl, hplain⟩
      exact ⟨htype, hplain⟩
    · rintro ⟨htype, hplain⟩
      exact ⟨_, htype, rfl, hplain⟩
  | .arr element length => by
    rw [flat, denote, Ordered, Flat.type_array, ← type_flat_iff element]
    split_ifs with hzero
    · exact ⟨nofun, fun h ↦ absurd hzero h.1.ne'⟩
    · rw [Option.map_eq_some_iff]
      constructor
      · rintro ⟨type, htype, heq⟩
        cases heq
        exact ⟨Nat.pos_of_ne_zero hzero, htype⟩
      · rintro ⟨-, htype⟩
        exact ⟨_, htype, rfl⟩
  | .func args ret => by
    rw [flat, denote, Ordered, Flat.type_function, ← type_flat_iff ret, ← types_flats_iff args]
    constructor
    · intro hfunction
      obtain ⟨types, htypes, hret⟩ := Option.bind_eq_some_iff.mp hfunction
      obtain ⟨type, htype, heq⟩ := Option.map_eq_some_iff.mp hret
      cases heq
      exact ⟨htypes, htype⟩
    · rintro ⟨htypes, htype⟩
      rw [htypes, htype]
      rfl
  | .atomic type => by
    rw [Ordered]
    constructor
    · intro htype hbase
      have hderived := derived_of_baseName (.atomic type) hbase htype
      exact type.denote.not_derived_qualify hderived
    · intro hbase
      obtain ⟨name, hname⟩ := Option.ne_none_iff_exists'.mp hbase
      exact (type_of_baseName (.atomic type) hname).1

theorem types_flats_iff : ∀ args : List TypeTerm,
    Flat.types (flats args) = some (denotes args) ↔ AllOrdered args
  | [] => ⟨fun _ ↦ trivial, fun _ ↦ rfl⟩
  | arg :: args => by
    rw [flats, denotes, AllOrdered, Flat.types_cons, ← type_flat_iff arg, ← types_flats_iff args]
    constructor
    · intro htypes
      obtain ⟨type, htype, hrest⟩ := Option.bind_eq_some_iff.mp htypes
      obtain ⟨types, htypes, heq⟩ := Option.map_eq_some_iff.mp hrest
      cases heq
      exact ⟨htype, htypes⟩
    · rintro ⟨htype, htypes⟩
      rw [htype, htypes]
      rfl

end

/-! ### Sizes -/

/-- The name that stands under `_Atomic` in an element of a nesting of arrays. -/
def atomicName : TypeTerm → Option TypeName
  | .arr element _ => element.atomicName
  | .atomic type => type.baseName
  | _ => none

/-- `_Atomic` does not enlarge what stands under it. -/
def KeepsSize (abi : Abi) (env : Env) (term : TypeTerm) : Prop :=
  ∀ name, term.atomicName = some name → ∀ layout, env name = some layout →
    (abi.atomic layout).size = layout.size

theorem size_of_baseName (sizes : TypeName → ℕ) : ∀ (term : TypeTerm) {name : TypeName},
    term.baseName = some name → (term.ty sizes).size = sizes name
  | .named name, other, hbase => by
    cases hbase
    rfl
  | .atomic type, name, hbase => size_of_baseName sizes type hbase

/-- The recorded size is that of the type that is meant where `_Atomic` keeps the size. -/
theorem size_iff (abi : Abi) {env : Env} {sizes : TypeName → ℕ}
    (hsizes : ∀ name layout, env name = some layout → layout.size = sizes name) :
    ∀ (term : TypeTerm), term.Ordered →
      ((∀ layout, term.denote.layout abi env = some layout →
          layout.size = (term.ty sizes).size) ↔ term.KeepsSize abi env)
  | .named name, _ => by
    refine ⟨fun _ other hname ↦ ?_, fun _ ↦ hsizes name⟩
    cases hname
  | .ptr target, _ => by
    refine ⟨fun _ other hname ↦ ?_, fun _ layout hlayout ↦ ?_⟩
    · cases hname
    · cases hlayout
      rfl
  | .arr element length, ⟨hlength, hordered⟩ => by
    refine Iff.trans ?_ (size_iff abi hsizes element hordered)
    constructor
    · intro hsize unit hunit
      have hlayout : (TypeTerm.arr element length).denote.layout abi env =
          some ⟨length * unit.size, unit.align⟩ := by
        rw [denote, CType.layout, hunit]
        rfl
      have hwhole : length * unit.size = length * (element.ty sizes).size := hsize _ hlayout
      exact Nat.eq_of_mul_eq_mul_left hlength hwhole
    · intro hsize layout hlayout
      obtain ⟨unit, hunit, rfl⟩ := Option.map_eq_some_iff.mp hlayout
      exact congrArg (length * ·) (hsize unit hunit)
  | .func args ret, _ => by
    refine ⟨fun _ other hname ↦ ?_, fun _ layout hlayout ↦ ?_⟩
    · cases hname
    · cases hlayout
  | .atomic type, hordered => by
    obtain ⟨name, hname⟩ := Option.ne_none_iff_exists'.mp hordered
    have hdenote : (TypeTerm.atomic type).denote = .atomic (.named name) := by
      rcases (type_of_baseName type hname).2 with hdenote | hdenote <;> rw [denote, hdenote] <;> rfl
    have hsize : ((TypeTerm.atomic type).ty sizes).size = sizes name :=
      size_of_baseName sizes (.atomic type) hname
    rw [hdenote, hsize]
    constructor
    · intro hatomic other hother layout hlayout
      obtain rfl : name = other := Option.some.inj (hname.symm.trans hother)
      rw [hsizes name layout hlayout]
      refine hatomic _ ?_
      rw [CType.layout, CType.layout, hlayout]
      rfl
    · intro hkeeps layout hlayout
      obtain ⟨inner, hinner, rfl⟩ := Option.map_eq_some_iff.mp hlayout
      exact (hkeeps name hname inner hinner).trans (hsizes name inner hinner)

/-- The text, with the name of a variable, declares the variable with the type that is meant, and
the recorded size is its size. -/
def DeclaredAsMeant (abi : Abi) (env : Env) (sizes : TypeName → ℕ) (term : TypeTerm)
    (name : String) (rest : List Token) : Prop :=
  readDeclaration ((term.ty sizes).declare [.identifier name] ++ rest) =
      some (name, term.denote, rest) ∧
    ∀ layout, term.denote.layout abi env = some layout → layout.size = (term.ty sizes).size

/-- Assumes: the names are given the sizes that C knows. -/
theorem declaredAsMeant_iff (abi : Abi) {env : Env} {sizes : TypeName → ℕ}
    (hsizes : ∀ name layout, env name = some layout → layout.size = sizes name)
    (term : TypeTerm) (name : String) {rest : List Token} (hrest : EndsDeclarator rest) :
    DeclaredAsMeant abi env sizes term name rest ↔ term.Ordered ∧ term.KeepsSize abi env := by
  have hread : readDeclaration ((term.ty sizes).declare [.identifier name] ++ rest) =
      some (name, term.denote, rest) ↔ term.Ordered := by
    rw [declare_flat, Flat.readDeclaration_flat term.flat name hrest.ends, ← type_flat_iff,
      Option.map_eq_some_iff]
    constructor
    · rintro ⟨type, htype, heq⟩
      cases heq
      exact htype
    · intro htype
      exact ⟨_, htype, rfl⟩
  unfold DeclaredAsMeant
  rw [hread, and_congr_right_iff]
  exact fun hordered ↦ size_iff abi hsizes term hordered

end TypeTerm

/-! ### A pointer to an array -/

/-- The sizes of the names that are there from the start. -/
def builtinSizes (name : TypeName) : ℕ := ((builtinEnv name).map Layout.size).getD 0

theorem size_builtin {name : TypeName} {layout : Layout} (hname : builtinEnv name = some layout) :
    layout.size = builtinSizes name := by
  rw [builtinSizes, hname]
  rfl

/-- `func([arr(byte, 4), ptr(ptr(word))], ptr(atomic(word)))`. -/
theorem declaredAsMeant_func :
    TypeTerm.DeclaredAsMeant clang builtinEnv builtinSizes
      (.func [.arr (.named (.plain "uint8_t")) 4, .ptr (.ptr (.named (.plain "uint64_t")))]
        (.ptr (.atomic (.named (.plain "uint64_t"))))) "callback" [.semicolon] := by
  have hends : EndsDeclarator [.semicolon] := trivial
  refine (TypeTerm.declaredAsMeant_iff clang (fun _ _ ↦ size_builtin) _ _ hends).mpr ⟨?_, ?_⟩
  · exact ⟨⟨⟨Nat.succ_pos 3, trivial⟩, ⟨⟨trivial, id⟩, id⟩, trivial⟩, Option.some_ne_none _, id⟩
  · intro name hname
    cases hname

/-- `ptr(arr(word, 3))`: an array of pointers is declared, of 24 bytes where 8 are recorded. -/
theorem not_declaredAsMeant :
    let word : TypeTerm := .named (.plain "uint64_t")
    let target := (TypeTerm.ptr (.arr word 3)).ty builtinSizes
    let declared : CType := .array (.pointer word.denote) 3
    target.declare [.identifier "x"] = [.typeName "uint64_t", .star, .identifier "x",
        .openBracket, .number 3, .closeBracket] ∧
      readDeclaration (target.declare [.identifier "x"] ++ [.semicolon]) =
        some ("x", declared, [.semicolon]) ∧
      (declared.layout clang builtinEnv).map Layout.size = some 24 ∧ target.size = 8 ∧
      ¬ TypeTerm.DeclaredAsMeant clang builtinEnv builtinSizes (.ptr (.arr word 3)) "x"
        [.semicolon] := by
  refine ⟨rfl, rfl, rfl, rfl, fun hmeant ↦ ?_⟩
  have hread := hmeant.1
  cases hread

end Libseff.Decls
