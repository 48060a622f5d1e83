import Libseff.Foundation.CDeclarations

/-!
# Declarations without grouping

A declaration that groups nothing by parentheses: qualifiers, the name of a type, stars, and behind
the declared name lengths and lists of parameters, which are declarations of the same kind without
a name. Whatever it was meant for, it is read as arrays and functions of pointers to the named type
(`readDeclaration_flat`).
-/

set_option autoImplicit false
set_option relaxedAutoImplicit false

namespace Libseff.Foundation.CDeclarations

/-- A declaration, by what stands behind the name, the first of it first. -/
inductive Flat where
  | base (qualifiers : ℕ) (name : TypeName) (stars : ℕ)
  | array (element : Flat) (length : ℕ)
  | function (parameters : List Flat) (result : Flat)

namespace Flat

/-! ### Texts -/

/-- The qualifiers and the name of the type. -/
def specifiers : Flat → List Token
  | .base qualifiers name _ => List.replicate qualifiers .atomic ++ name.tokens
  | .array element _ => element.specifiers
  | .function _ result => result.specifiers

def stars : Flat → ℕ
  | .base _ _ stars => stars
  | .array element _ => element.stars
  | .function _ result => result.stars

mutual

/-- What stands behind the name. -/
def suffix : Flat → List Token
  | .base .. => []
  | .array element length => brackets length ++ element.suffix
  | .function parameters result =>
    .openParen :: (parametersText parameters ++ .closeParen :: result.suffix)

/-- The parameters, with commas between them. -/
def parametersText : List Flat → List Token
  | [] => []
  | [parameter] =>
    parameter.specifiers ++ List.replicate parameter.stars .star ++ parameter.suffix
  | parameter :: parameters =>
    parameter.specifiers ++ List.replicate parameter.stars .star ++ parameter.suffix ++
      .comma :: parametersText parameters

end

/-- The declaration of what is written inside. -/
def tokens (flat : Flat) (inner : List Token) : List Token :=
  flat.specifiers ++ List.replicate flat.stars .star ++ inner ++ flat.suffix

theorem tokens_name (name : TypeName) (inner : List Token) :
    (base 0 name 0).tokens inner = name.tokens ++ inner := by
  simp only [tokens, specifiers, stars, suffix, List.replicate_zero, List.nil_append,
    List.append_nil]

theorem tokens_array (element : Flat) (length : ℕ) (inner : List Token) :
    (array element length).tokens inner = element.tokens (inner ++ brackets length) := by
  simp only [tokens, specifiers, stars, suffix, List.append_assoc]

theorem tokens_function (parameters : List Flat) (result : Flat) (inner : List Token) :
    (function parameters result).tokens inner =
      result.tokens (inner ++ .openParen :: (parametersText parameters ++ [.closeParen])) := by
  simp only [tokens, specifiers, stars, suffix, List.append_assoc, List.cons_append,
    List.nil_append]

theorem parametersText_singleton (parameter : Flat) :
    parametersText [parameter] = parameter.tokens [] := by
  rw [parametersText, tokens, List.append_nil]

theorem parametersText_cons (parameter next : Flat) (parameters : List Flat) :
    parametersText (parameter :: next :: parameters) =
      parameter.tokens [] ++ .comma :: parametersText (next :: parameters) := by
  rw [parametersText, tokens, List.append_nil]
  exact nofun

/-! ### Types -/

/-- The type before the name. -/
def specifier : Flat → CType
  | .base qualifiers name _ =>
    if qualifiers = 0 then .named name else .atomic (.named name)
  | .array element _ => element.specifier
  | .function _ result => result.specifier

mutual

/-- What stands behind the name makes of a type, if no length is 0. -/
def apply : Flat → Option (CType → CType)
  | .base .. => some id
  | .array element length =>
    if length = 0 then none
    else element.apply.map fun apply type ↦ .array (apply type) length
  | .function parameters result =>
    (types parameters).bind fun types ↦
      result.apply.map fun apply type ↦ .function types (apply type)

/-- The types of parameters. -/
def types : List Flat → Option (List CType)
  | [] => some []
  | parameter :: parameters =>
    parameter.apply.bind fun apply ↦ (types parameters).map fun types ↦
      apply (CType.pointer^[parameter.stars] parameter.specifier) :: types

end

/-- The type that the declaration gives the name, if no length is 0. -/
def type (flat : Flat) : Option CType :=
  flat.apply.map fun apply ↦ apply (CType.pointer^[flat.stars] flat.specifier)

theorem type_array (element : Flat) (length : ℕ) :
    (array element length).type =
      if length = 0 then none else element.type.map fun type ↦ .array type length := by
  rw [type, apply, type, Option.map_map]
  split_ifs with hzero
  · rfl
  · rw [Option.map_map]
    rfl

theorem types_cons (parameter : Flat) (parameters : List Flat) :
    types (parameter :: parameters) =
      parameter.type.bind fun type ↦ (types parameters).map fun types ↦ type :: types := by
  rw [types, type]
  cases parameter.apply <;> rfl

theorem type_function (parameters : List Flat) (result : Flat) :
    (function parameters result).type =
      (types parameters).bind fun types ↦ result.type.map fun type ↦ .function types type := by
  rw [type, apply, type]
  cases types parameters with
  | none => rfl
  | some types => cases result.apply <;> rfl

/-! ### Reading -/

/-- What follows a declaration: neither a length nor parameters. -/
def Ends : List Token → Prop
  | .semicolon :: _ => True
  | .attributes _ :: _ => True
  | .comma :: _ => True
  | .closeParen :: _ => True
  | _ => False

theorem readSpecifiers_qualified (qualifiers : ℕ) (name : TypeName) (rest : List Token) :
    readSpecifiers (List.replicate qualifiers .atomic ++ name.tokens ++ rest) =
      some (if qualifiers = 0 then .named name else .atomic (.named name), rest) := by
  have hname : readSpecifiers (name.tokens ++ rest) = some (.named name, rest) := by
    cases name <;> rfl
  induction qualifiers with
  | zero => exact hname
  | succ qualifiers ih =>
    rw [List.replicate_succ, List.cons_append, List.cons_append, readSpecifiers, ih,
      Option.map_some]
    cases qualifiers <;> rfl

theorem readSpecifiers_flat (rest : List Token) :
    ∀ flat : Flat, readSpecifiers (flat.specifiers ++ rest) = some (flat.specifier, rest)
  | .base qualifiers name _ => readSpecifiers_qualified qualifiers name rest
  | .array element _ => readSpecifiers_flat rest element
  | .function _ result => readSpecifiers_flat rest result

/-- A type starts with a token that opens parameters. -/
theorem opensParameters_specifiers (rest : List Token) :
    ∀ flat : Flat, opensParameters (flat.specifiers ++ rest) = true
  | .base 0 (.plain _) _ => rfl
  | .base 0 (.tagged _) _ => rfl
  | .base (_ + 1) _ _ => rfl
  | .array element _ => opensParameters_specifiers rest element
  | .function _ result => opensParameters_specifiers rest result

theorem opensParameters_parameters (rest : List Token) (parameters : List Flat) :
    opensParameters (parametersText parameters ++ .closeParen :: rest) = true := by
  match parameters with
  | [] => rfl
  | [parameter] =>
    rw [parametersText, List.append_assoc, List.append_assoc]
    exact opensParameters_specifiers _ parameter
  | parameter :: next :: parameters =>
    rw [parametersText, List.append_assoc, List.append_assoc, List.append_assoc]
    · exact opensParameters_specifiers _ parameter
    · exact nofun

theorem length_specifiers_pos : ∀ flat : Flat, 0 < flat.specifiers.length
  | .base _ (.plain _) _ => by
    rw [specifiers, List.length_append]
    exact Nat.succ_pos _
  | .base _ (.tagged _) _ => by
    rw [specifiers, List.length_append]
    exact Nat.succ_pos _
  | .array element _ => length_specifiers_pos element
  | .function _ result => length_specifiers_pos result

theorem readSpecifiers_parameters (parameter : Flat) (parameters : List Flat)
    (rest : List Token) : ∃ others,
      readSpecifiers (parametersText (parameter :: parameters) ++ rest) =
        some (parameter.specifier, others) := by
  cases parameters with
  | nil =>
    rw [parametersText, List.append_assoc, List.append_assoc]
    exact ⟨_, readSpecifiers_flat _ parameter⟩
  | cons next parameters =>
    rw [parametersText, List.append_assoc, List.append_assoc, List.append_assoc]
    · exact ⟨_, readSpecifiers_flat _ parameter⟩
    · exact nofun

/-- Without a name and stars a declarator is what stands behind the name. -/
theorem readDeclarator_suffix (flat : Flat) {rest : List Token} (hrest : Ends rest) (fuel : ℕ) :
    readDeclarator (fuel + 1) (flat.suffix ++ rest) =
      (readSuffixes fuel (flat.suffix ++ rest)).map fun (suffix, rest) ↦
        (⟨none, suffix⟩, rest) := by
  have hmap : ∀ read : Option ((CType → CType) × List Token),
      (do let (suffix, rest) ← read; some ((⟨none, suffix⟩ : Declarator), rest)) =
        read.map fun (suffix, rest) ↦ (⟨none, suffix⟩, rest) := by
    rintro (_ | ⟨suffix, rest⟩) <;> rfl
  cases flat with
  | base qualifiers name stars =>
    rw [suffix, List.nil_append]
    match rest, hrest with
    | .semicolon :: _, _ => exact hmap _
    | .attributes _ :: _, _ => exact hmap _
    | .comma :: _, _ => exact hmap _
    | .closeParen :: _, _ => exact hmap _
  | array element length => exact hmap _
  | function parameters result =>
    rw [suffix, List.cons_append, List.append_assoc, List.cons_append, readDeclarator,
      if_pos (opensParameters_parameters _ parameters)]
    exact hmap _

/-- The stars and what stands behind the name, under `inner`, which reads the rest of a
declarator. -/
theorem readDeclarator_stars (flat : Flat) {inner rest : List Token} {name : Option String}
    {least : ℕ} (hinner : ∀ fuel, least < fuel → readDeclarator fuel inner =
      flat.apply.map fun apply ↦ (⟨name, apply⟩, rest)) (stars fuel : ℕ)
    (hfuel : stars + least < fuel) :
    readDeclarator fuel (List.replicate stars .star ++ inner) =
      flat.apply.map fun apply ↦ (⟨name, apply ∘ CType.pointer^[stars]⟩, rest) := by
  induction stars generalizing fuel with
  | zero =>
    rw [List.replicate_zero, List.nil_append, hinner fuel (by omega)]
    rfl
  | succ stars ih =>
    obtain ⟨fuel, rfl⟩ := Nat.exists_eq_succ_of_ne_zero (Nat.ne_zero_of_lt hfuel)
    rw [List.replicate_succ, List.cons_append, readDeclarator, ih fuel (by omega)]
    cases flat.apply with
    | none => rfl
    | some apply =>
      rw [Function.iterate_succ]
      rfl

/-- A declarator without a name. -/
theorem readDeclarator_unnamed (flat : Flat) {rest : List Token} (hrest : Ends rest)
    (hsuffix : ∀ fuel, flat.suffix.length < fuel → readSuffixes fuel (flat.suffix ++ rest) =
      flat.apply.map fun apply ↦ (apply, rest)) (stars fuel : ℕ)
    (hfuel : stars + (flat.suffix.length + 1) < fuel) :
    readDeclarator fuel (List.replicate stars .star ++ (flat.suffix ++ rest)) =
      flat.apply.map fun apply ↦ (⟨none, apply ∘ CType.pointer^[stars]⟩, rest) := by
  refine readDeclarator_stars flat ?_ stars fuel hfuel
  intro fuel hfuel
  obtain ⟨fuel, rfl⟩ := Nat.exists_eq_succ_of_ne_zero (Nat.ne_zero_of_lt hfuel)
  rw [readDeclarator_suffix flat hrest, hsuffix fuel (by omega), Option.map_map]
  rfl

mutual

/-- What stands behind a name is read whole. -/
theorem readSuffixes_flat : ∀ (flat : Flat) (rest : List Token), Ends rest → ∀ fuel,
    flat.suffix.length < fuel → readSuffixes fuel (flat.suffix ++ rest) =
      flat.apply.map fun apply ↦ (apply, rest)
  | .base _ _ _, rest, hrest, fuel, hfuel => by
    obtain ⟨fuel, rfl⟩ := Nat.exists_eq_succ_of_ne_zero (Nat.ne_zero_of_lt hfuel)
    match rest, hrest with
    | .semicolon :: _, _ => rfl
    | .attributes _ :: _, _ => rfl
    | .comma :: _, _ => rfl
    | .closeParen :: _, _ => rfl
  | .array element length, rest, hrest, fuel, hfuel => by
    obtain ⟨fuel, rfl⟩ := Nat.exists_eq_succ_of_ne_zero (Nat.ne_zero_of_lt hfuel)
    have hlength : (suffix (.array element length)).length = element.suffix.length + 3 := by
      rw [suffix, List.length_append, Nat.add_comm]
      rfl
    have hinner := readSuffixes_flat element rest hrest fuel (by omega)
    rw [suffix, brackets, List.append_assoc]
    simp only [List.cons_append, List.nil_append, readSuffixes, hinner, apply]
    split_ifs with hzero
    · rfl
    · cases element.apply <;> rfl
  | .function parameters result, rest, hrest, fuel, hfuel => by
    obtain ⟨fuel, rfl⟩ := Nat.exists_eq_succ_of_ne_zero (Nat.ne_zero_of_lt hfuel)
    have hlength : (suffix (.function parameters result)).length =
        (parametersText parameters).length + result.suffix.length + 2 := by
      rw [suffix, List.length_cons, List.length_append, List.length_cons]
      rfl
    have hinner := readSuffixes_flat result rest hrest fuel (by omega)
    cases parameters with
    | nil =>
      simp only [suffix, parametersText, List.cons_append, List.nil_append, readSuffixes, hinner,
        apply, types]
      cases result.apply <;> rfl
    | cons parameter parameters =>
      have hparameters := readParameters_flat (parameter :: parameters) (List.cons_ne_nil _ _)
        (result.suffix ++ rest) fuel (by omega)
      rw [suffix, List.cons_append, List.append_assoc, List.cons_append, readSuffixes, hparameters,
        apply]
      · cases types (parameter :: parameters) with
        | none => rfl
        | some types =>
          simp only [Option.bind_eq_bind, Option.map_some, Option.bind_some, hinner]
          cases result.apply <;> rfl
      · intro tail heq
        obtain ⟨others, hread⟩ := readSpecifiers_parameters parameter parameters
          (.closeParen :: (result.suffix ++ rest))
        rw [heq] at hread
        cases hread

/-- Parameters are read up to the parenthesis. -/
theorem readParameters_flat : ∀ (parameters : List Flat), parameters ≠ [] →
    ∀ (rest : List Token) (fuel : ℕ), (parametersText parameters).length + 1 < fuel →
      readParameters fuel (parametersText parameters ++ .closeParen :: rest) =
        (types parameters).map fun types ↦ (types, rest)
  | [], hnil, rest, fuel, hfuel => absurd rfl hnil
  | [parameter], _, rest, fuel, hfuel => by
    obtain ⟨fuel, rfl⟩ := Nat.exists_eq_succ_of_ne_zero (Nat.ne_zero_of_lt hfuel)
    have hpos := length_specifiers_pos parameter
    have hends : Ends (.closeParen :: rest) := trivial
    rw [parametersText] at hfuel ⊢
    simp only [List.length_append, List.length_replicate] at hfuel
    have hdeclarator := readDeclarator_unnamed parameter hends
      (readSuffixes_flat parameter _ hends) parameter.stars fuel (by omega)
    rw [List.append_assoc, List.append_assoc, readParameters, readSpecifiers_flat]
    simp only [Option.bind_eq_bind, Option.bind_some, hdeclarator]
    rw [types, types]
    cases parameter.apply <;> rfl
  | parameter :: next :: parameters, _, rest, fuel, hfuel => by
    obtain ⟨fuel, rfl⟩ := Nat.exists_eq_succ_of_ne_zero (Nat.ne_zero_of_lt hfuel)
    have hpos := length_specifiers_pos parameter
    have hends : Ends (.comma :: (parametersText (next :: parameters) ++ .closeParen :: rest)) :=
      trivial
    rw [parametersText_cons, tokens, List.append_nil] at hfuel ⊢
    simp only [List.length_append, List.length_replicate, List.length_cons] at hfuel
    have hdeclarator := readDeclarator_unnamed parameter hends
      (readSuffixes_flat parameter _ hends) parameter.stars fuel (by omega)
    have hmore := readParameters_flat (next :: parameters) (List.cons_ne_nil _ _) rest fuel
      (by omega)
    rw [List.append_assoc, List.append_assoc, List.append_assoc, readParameters,
      readSpecifiers_flat, List.cons_append]
    simp only [Option.bind_eq_bind, Option.bind_some, hdeclarator]
    rw [types]
    cases parameter.apply with
    | none => rfl
    | some apply =>
      simp only [Option.map_some, Option.bind_some, hmore]
      cases types (next :: parameters) <;> rfl

end

/-- A declaration that groups nothing declares the type that its parts make. -/
theorem readDeclaration_flat (flat : Flat) (name : String) {rest : List Token}
    (hrest : Ends rest) :
    readDeclaration (flat.tokens [.identifier name] ++ rest) =
      flat.type.map fun type ↦ (name, type, rest) := by
  have hsplit : flat.tokens [.identifier name] ++ rest = flat.specifiers ++
      (List.replicate flat.stars .star ++ .identifier name :: (flat.suffix ++ rest)) := by
    simp only [tokens, List.append_assoc, List.cons_append, List.nil_append]
  have hfuel : flat.stars + (flat.suffix.length + 1) <
      (flat.tokens [.identifier name] ++ rest).length + 1 := by
    simp only [tokens, List.length_append, List.length_replicate, List.length_cons]
    omega
  have hinner : ∀ fuel, flat.suffix.length + 1 < fuel →
      readDeclarator fuel (.identifier name :: (flat.suffix ++ rest)) =
        flat.apply.map fun apply ↦ (⟨some name, apply⟩, rest) := by
    intro fuel hfuel
    obtain ⟨fuel, rfl⟩ := Nat.exists_eq_succ_of_ne_zero (Nat.ne_zero_of_lt hfuel)
    rw [readDeclarator, readSuffixes_flat flat rest hrest fuel (by omega)]
    cases flat.apply <;> rfl
  have hdeclarator := readDeclarator_stars flat hinner flat.stars _ hfuel
  rw [hsplit] at hdeclarator ⊢
  simp only [readDeclaration, readSpecifiers_flat, Option.bind_eq_bind, Option.bind_some,
    hdeclarator, type]
  cases flat.apply <;> rfl

/-! ### Stars and qualifiers put to a declaration -/

/-- One more star before the name. -/
def addStar : Flat → Flat
  | .base qualifiers name stars => .base qualifiers name (stars + 1)
  | .array element length => .array element.addStar length
  | .function parameters result => .function parameters result.addStar

/-- One more qualifier before the name of the type. -/
def addQualifier : Flat → Flat
  | .base qualifiers name stars => .base (qualifiers + 1) name stars
  | .array element length => .array element.addQualifier length
  | .function parameters result => .function parameters result.addQualifier

theorem specifiers_addStar : ∀ flat : Flat, flat.addStar.specifiers = flat.specifiers
  | .base .. => rfl
  | .array element _ => specifiers_addStar element
  | .function _ result => specifiers_addStar result

theorem stars_addStar : ∀ flat : Flat, flat.addStar.stars = flat.stars + 1
  | .base .. => rfl
  | .array element _ => stars_addStar element
  | .function _ result => stars_addStar result

theorem suffix_addStar : ∀ flat : Flat, flat.addStar.suffix = flat.suffix
  | .base .. => rfl
  | .array element length => by rw [addStar, suffix, suffix_addStar element, suffix]
  | .function parameters result => by rw [addStar, suffix, suffix_addStar result, suffix]

theorem tokens_addStar (flat : Flat) (inner : List Token) :
    flat.addStar.tokens inner = flat.tokens (.star :: inner) := by
  simp only [tokens, specifiers_addStar, stars_addStar, suffix_addStar, List.replicate_succ',
    List.append_assoc, List.cons_append, List.nil_append]

theorem specifiers_addQualifier :
    ∀ flat : Flat, flat.addQualifier.specifiers = .atomic :: flat.specifiers
  | .base .. => rfl
  | .array element _ => specifiers_addQualifier element
  | .function _ result => specifiers_addQualifier result

theorem stars_addQualifier : ∀ flat : Flat, flat.addQualifier.stars = flat.stars
  | .base .. => rfl
  | .array element _ => stars_addQualifier element
  | .function _ result => stars_addQualifier result

theorem suffix_addQualifier : ∀ flat : Flat, flat.addQualifier.suffix = flat.suffix
  | .base .. => rfl
  | .array element length => by rw [addQualifier, suffix, suffix_addQualifier element, suffix]
  | .function parameters result => by
    rw [addQualifier, suffix, suffix_addQualifier result, suffix]

theorem tokens_addQualifier (flat : Flat) (inner : List Token) :
    flat.addQualifier.tokens inner = .atomic :: flat.tokens inner := by
  rw [tokens, specifiers_addQualifier, stars_addQualifier, suffix_addQualifier]
  rfl

end Flat

/-- An array or a function, which is declared by what stands behind the name. -/
def CType.Suffixed : CType → Prop
  | .array _ _ => True
  | .function _ _ => True
  | _ => False

/-- A type that a declarator makes of another. -/
def CType.Derived : CType → Prop
  | .pointer _ => True
  | type => type.Suffixed

theorem CType.Suffixed.derived : ∀ {type : CType}, type.Suffixed → type.Derived
  | .array _ _, _ => trivial
  | .function _ _, _ => trivial

/-- What one more star makes of a type: the elements and the result become pointers. -/
def CType.addStar : CType → CType
  | .array element length => .array element.addStar length
  | .function parameters result => .function parameters result.addStar
  | type => .pointer type

/-- What one more qualifier makes of a type: it falls to the named type. -/
def CType.addQualifier : CType → CType
  | .array element length => .array element.addQualifier length
  | .function parameters result => .function parameters result.addQualifier
  | .pointer target => .pointer target.addQualifier
  | type => type.qualify

/-- A star makes a pointer of a type where the type has nothing behind the name. -/
theorem CType.addStar_eq_pointer_iff {type target : CType} :
    type.addStar = .pointer target ↔ type = target ∧ ¬ target.Suffixed := by
  constructor
  · intro heq
    cases type with
    | array element length => cases heq
    | function parameters result => cases heq
    | named name =>
      cases heq
      exact ⟨rfl, id⟩
    | pointer inner =>
      cases heq
      exact ⟨rfl, id⟩
    | atomic inner =>
      cases heq
      exact ⟨rfl, id⟩
  · rintro ⟨rfl, hplain⟩
    cases type with
    | array element length => exact absurd trivial hplain
    | function parameters result => exact absurd trivial hplain
    | named name => rfl
    | pointer inner => rfl
    | atomic inner => rfl

theorem CType.derived_addStar : ∀ type : CType, type.addStar.Derived
  | .named _ => trivial
  | .pointer _ => trivial
  | .array _ _ => trivial
  | .function _ _ => trivial
  | .atomic _ => trivial

theorem CType.derived_addQualifier : ∀ {type : CType}, type.Derived → type.addQualifier.Derived
  | .pointer _, _ => trivial
  | .array _ _, _ => trivial
  | .function _ _, _ => trivial

theorem CType.not_derived_qualify : ∀ type : CType, ¬ type.qualify.Derived
  | .named _ => id
  | .pointer _ => id
  | .array _ _ => id
  | .function _ _ => id
  | .atomic _ => id

namespace Flat

theorem apply_addStar : ∀ flat : Flat, flat.addStar.apply = flat.apply
  | .base .. => rfl
  | .array element length => by rw [addStar, apply, apply_addStar element, apply]
  | .function parameters result => by rw [addStar, apply, apply_addStar result, apply]

theorem specifier_addStar : ∀ flat : Flat, flat.addStar.specifier = flat.specifier
  | .base .. => rfl
  | .array element _ => specifier_addStar element
  | .function _ result => specifier_addStar result

theorem apply_addQualifier : ∀ flat : Flat, flat.addQualifier.apply = flat.apply
  | .base .. => rfl
  | .array element length => by rw [addQualifier, apply, apply_addQualifier element, apply]
  | .function parameters result => by rw [addQualifier, apply, apply_addQualifier result, apply]

theorem specifier_addQualifier :
    ∀ flat : Flat, flat.addQualifier.specifier = flat.specifier.addQualifier
  | .base 0 _ _ => rfl
  | .base (_ + 1) _ _ => rfl
  | .array element _ => specifier_addQualifier element
  | .function _ result => specifier_addQualifier result

/-- Lengths and parameters pass on what `change` does to the type under them. -/
theorem apply_comm {change : CType → CType}
    (harray : ∀ element length, change (.array element length) = .array (change element) length)
    (hfunction : ∀ parameters result,
      change (.function parameters result) = .function parameters (change result)) :
    ∀ (flat : Flat) {applied : CType → CType}, flat.apply = some applied → ∀ type,
      applied (change type) = change (applied type)
  | .base .., applied, happly, type => by
    cases happly
    rfl
  | .array element length, applied, happly, type => by
    rw [apply] at happly
    split_ifs at happly
    obtain ⟨inner, hinner, rfl⟩ := Option.map_eq_some_iff.mp happly
    dsimp only
    rw [harray, apply_comm harray hfunction element hinner]
  | .function parameters result, applied, happly, type => by
    rw [apply] at happly
    obtain ⟨types, -, hresult⟩ := Option.bind_eq_some_iff.mp happly
    obtain ⟨inner, hinner, rfl⟩ := Option.map_eq_some_iff.mp hresult
    dsimp only
    rw [hfunction, apply_comm harray hfunction result hinner]

/-- A change of the type under the declarator, and of nothing else. -/
theorem type_of_change {change : CType → CType}
    (harray : ∀ element length, change (.array element length) = .array (change element) length)
    (hfunction : ∀ parameters result,
      change (.function parameters result) = .function parameters (change result))
    {flat changed : Flat} (happly : changed.apply = flat.apply)
    (hbase : CType.pointer^[changed.stars] changed.specifier =
      change (CType.pointer^[flat.stars] flat.specifier)) :
    changed.type = flat.type.map change := by
  rw [type, happly, hbase, type, Option.map_map]
  cases hflat : flat.apply with
  | none => rfl
  | some applied => exact congrArg some (apply_comm harray hfunction flat hflat _)

theorem addStar_specifier : ∀ flat : Flat, flat.specifier.addStar = .pointer flat.specifier
  | .base 0 _ _ => rfl
  | .base (_ + 1) _ _ => rfl
  | .array element _ => addStar_specifier element
  | .function _ result => addStar_specifier result

/-- A star before the name binds to what stands before it. -/
theorem type_addStar (flat : Flat) : flat.addStar.type = flat.type.map CType.addStar := by
  refine type_of_change (fun _ _ ↦ rfl) (fun _ _ ↦ rfl) (apply_addStar flat) ?_
  rw [specifier_addStar, stars_addStar, Function.iterate_succ_apply']
  cases flat.stars with
  | zero => exact (addStar_specifier flat).symm
  | succ stars =>
    rw [Function.iterate_succ_apply']
    rfl

/-- A qualifier before the name of a type binds to the name. -/
theorem type_addQualifier (flat : Flat) :
    flat.addQualifier.type = flat.type.map CType.addQualifier := by
  have hcommute : Function.Commute CType.addQualifier CType.pointer := fun _ ↦ rfl
  refine type_of_change (fun _ _ ↦ rfl) (fun _ _ ↦ rfl) (apply_addQualifier flat) ?_
  rw [specifier_addQualifier, stars_addQualifier]
  exact (hcommute.iterate_right flat.stars flat.specifier).symm

end Flat

end Libseff.Foundation.CDeclarations
