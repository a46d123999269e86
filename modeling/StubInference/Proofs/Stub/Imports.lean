import Mathlib.Tactic.MkIffOfInductiveProp
import StubInference.Proofs.Occurrences
import StubInference.Proofs.Stub.Pieces

/-!
# The import line of a stub

Which typing names a stub imports can be told from its declarations. A name is used where a type is shown
that is written with it, at any depth, and `overload` is used where a function or a method has several
signatures. A parameter that may be anything shows no type, and `object` is not shown as a base. The import
line lists just these names, which are those in the text below it, in order and without repetitions.

A module that uses no typing name has no import line. A constant could be named like one, but not if names
have no blanks in them.

## Main definitions

* `Stub.TypeExpr.WrittenWith` — the typing name that a type is written with
* `Stub.Module.shownTypes` — the types that the declarations of a module show
* `Stub.Module.Uses` — the typing names that they use

## Main results

* `Stub.Module.mem_imports_iff` — which typing names are collected
* `Stub.pairwise_sortedNames`, `Stub.mem_sortedNames` — how they are listed
* `Stub.Module.not_prefix_body` — declarations do not look like an import line
* `Stub.Module.import_line` — all together
-/

namespace StubInference.Stub

theorem exists_mem_flatMap {α β : Type} {items : List α} {held : α → List β} {p : β → Prop} :
    (∃ b ∈ items.flatMap held, p b) ↔ ∃ a ∈ items, ∃ b ∈ held a, p b := by
  simp only [List.mem_flatMap]
  constructor
  · rintro ⟨b, ⟨a, ha, hb⟩, holds⟩
    exact ⟨a, ha, b, hb, holds⟩
  · rintro ⟨a, ha, b, hb, holds⟩
    exact ⟨b, ⟨a, ha, hb⟩, holds⟩

/-! ## Types -/

namespace TypeExpr

variable {name : String}

mutual
/-- All types that a type is made of, and the type itself. -/
def parts : TypeExpr → List TypeExpr
  | .anything => [.anything]
  | .nothing => [.nothing]
  | .named name => [.named name]
  | .generic base parameters => .generic base parameters :: partsOf parameters
  | .callable result => .callable result :: result.parts
  | .union members => .union members :: partsOf members

/-- All types that several types are made of. -/
def partsOf : List TypeExpr → List TypeExpr
  | [] => []
  | ty :: rest => ty.parts ++ partsOf rest
end

/-- The typing name that a type itself is written with, apart from the types in it. -/
@[mk_iff]
inductive WrittenWith : TypeExpr → String → Prop
  | anything : WrittenWith .anything "Any"
  | nothing : WrittenWith .nothing "NoReturn"
  | callable (result : TypeExpr) : WrittenWith (.callable result) "Callable"
  | named (short : String) : WrittenWith (.named ("typing." ++ short)) short
  | generic (short : String) (parameters : List TypeExpr) :
    WrittenWith (.generic ("typing." ++ short) parameters) short

/-- A type or some type in it is written with a typing name. -/
def Uses (ty : TypeExpr) (name : String) : Prop := ∃ part ∈ ty.parts, part.WrittenWith name

mutual
/-- What is collected for a type are the typing names that it is written with, at any depth. -/
theorem mem_imports_iff (ty : TypeExpr) : name ∈ ty.imports ↔ ty.Uses name := by
  cases ty with
  | anything | nothing => simp [imports, Uses, parts, writtenWith_iff]
  | named base => simp [imports, Uses, parts, writtenWith_iff, mem_classImports_iff]
  | generic base parameters =>
    simp [imports, Uses, parts, writtenWith_iff, mem_classImports_iff, mem_importsOf_iff parameters]
  | callable result =>
    have inner : name ∈ result.imports ↔ result.Uses name := mem_imports_iff result
    simp [imports, inner, Uses, parts, writtenWith_iff]
  | union members => simp [imports, Uses, parts, writtenWith_iff, mem_importsOf_iff members]

theorem mem_importsOf_iff (types : List TypeExpr) :
    name ∈ importsOf types ↔ ∃ part ∈ partsOf types, part.WrittenWith name := by
  cases types with
  | nil => simp [importsOf, partsOf]
  | cons ty rest =>
    rw [importsOf, List.mem_append, mem_imports_iff ty, mem_importsOf_iff rest]
    simp only [Uses, partsOf, List.mem_append, or_and_right, exists_or]
end

/-- Some of these types uses a typing name. -/
def SomeUses (types : List TypeExpr) (name : String) : Prop := ∃ ty ∈ types, ty.Uses name

section SomeUses

variable {types more : List TypeExpr} {ty : TypeExpr}

theorem someUses_append : SomeUses (types ++ more) name ↔ SomeUses types name ∨ SomeUses more name := by
  simp only [SomeUses, List.mem_append, or_and_right, exists_or]

theorem someUses_singleton : SomeUses [ty] name ↔ ty.Uses name := by
  simp only [SomeUses, List.mem_singleton, exists_eq_left]

theorem someUses_flatMap {α : Type} {items : List α} {types : α → List TypeExpr} :
    SomeUses (items.flatMap types) name ↔ ∃ item ∈ items, SomeUses (types item) name :=
  exists_mem_flatMap

theorem mem_flatMap_imports_iff : name ∈ types.flatMap imports ↔ SomeUses types name := by
  simp only [List.mem_flatMap, mem_imports_iff, SomeUses]

end SomeUses

end TypeExpr

/-! ## Declarations -/

namespace Parameter

variable {name : String} {parameters : List Parameter}

/-- The types that parameters show. -/
def shownTypes (parameters : List Parameter) : List TypeExpr :=
  (parameters.filter annotated).map Parameter.type

theorem mem_flatMap_imports_iff :
    name ∈ parameters.flatMap imports ↔ TypeExpr.SomeUses (shownTypes parameters) name := by
  rw [List.mem_flatMap]
  constructor
  · rintro ⟨parameter, member, used⟩
    unfold imports at used
    split at used
    case isTrue annotated =>
      exact ⟨parameter.type, List.mem_map_of_mem (List.mem_filter.mpr ⟨member, annotated⟩),
        (TypeExpr.mem_imports_iff _).mp used⟩
    case isFalse => cases used
  · rintro ⟨ty, shown, used⟩
    obtain ⟨parameter, member, rfl⟩ := List.mem_map.mp shown
    obtain ⟨member, annotated⟩ := List.mem_filter.mp member
    have collected := (TypeExpr.mem_imports_iff parameter.type).mpr used
    exact ⟨parameter, member, by rwa [imports, if_pos annotated]⟩

end Parameter

namespace Signature

variable {name : String} {signature : Signature}

/-- The types that a signature shows. -/
def shownTypes (signature : Signature) : List TypeExpr :=
  Parameter.shownTypes (signature.parameters ++ signature.starArgs.toList ++ signature.starStarArgs.toList) ++
    [signature.returnType]

theorem mem_imports_iff : name ∈ signature.imports ↔ TypeExpr.SomeUses signature.shownTypes name := by
  rw [imports, ← List.flatMap_append, ← List.flatMap_append, List.mem_append,
    Parameter.mem_flatMap_imports_iff, TypeExpr.mem_imports_iff, shownTypes, TypeExpr.someUses_append,
    TypeExpr.someUses_singleton]

end Signature

namespace Function

variable {name : String} {function : Function}

/-- The types that a function shows. -/
def shownTypes (function : Function) : List TypeExpr := function.signatures.flatMap Signature.shownTypes

/-- A function has several signatures or shows a type that uses a typing name. -/
def Uses (function : Function) (name : String) : Prop :=
  (name = "overload" ∧ 1 < function.signatures.length) ∨ TypeExpr.SomeUses function.shownTypes name

theorem mem_imports_iff : name ∈ function.imports ↔ function.Uses name := by
  rw [Uses, imports, List.mem_append, List.mem_flatMap, shownTypes, TypeExpr.someUses_flatMap, overloaded]
  simp only [Signature.mem_imports_iff]
  by_cases several : 1 < function.signatures.length <;> simp [several]

end Function

namespace Class

variable {name : String}

mutual
/-- A class and all classes inside of it, at any depth. -/
def within : Class → List Class
  | .mk name bases keywords constants methods classes =>
    .mk name bases keywords constants methods classes :: withinAll classes

/-- Several classes and all classes inside of them. -/
def withinAll : List Class → List Class
  | [] => []
  | cls :: rest => cls.within ++ withinAll rest
end

/-- The types in the first line of a class. -/
def headerTypes (cls : Class) : List TypeExpr := shownBases cls.bases ++ cls.keywords.map (·.2)

/-- A class uses a typing name in its first line, in a constant or in a method, apart from the classes inside
of it. -/
def Uses (cls : Class) (name : String) : Prop :=
  TypeExpr.SomeUses (cls.headerTypes ++ cls.constants.map Constant.type) name ∨ ∃ f ∈ cls.methods, f.Uses name

mutual
theorem mem_imports_iff (cls : Class) : name ∈ cls.imports ↔ ∃ c ∈ cls.within, c.Uses name := by
  cases cls with
  | mk title bases keywords constants methods classes =>
    have inner := mem_importsOf_iff classes
    have own : Uses (.mk title bases keywords constants methods classes) name ↔
        ((name ∈ (shownBases bases).flatMap TypeExpr.imports ∨
          name ∈ keywords.flatMap fun entry => entry.2.imports) ∨
          name ∈ constants.flatMap fun constant => constant.type.imports) ∨
          name ∈ methods.flatMap Function.imports := by
      rw [Uses, headerTypes, TypeExpr.someUses_append, TypeExpr.someUses_append,
        ← TypeExpr.mem_flatMap_imports_iff, ← TypeExpr.mem_flatMap_imports_iff,
        ← TypeExpr.mem_flatMap_imports_iff, List.flatMap_map, List.flatMap_map,
        List.mem_flatMap (l := methods)]
      simp only [Function.mem_imports_iff]
      rfl
    rw [imports, within]
    simp only [List.mem_append, List.mem_cons, or_and_right, exists_or, exists_eq_left, inner, own]

theorem mem_importsOf_iff (classes : List Class) :
    name ∈ importsOf classes ↔ ∃ c ∈ withinAll classes, c.Uses name := by
  cases classes with
  | nil => simp [importsOf, withinAll]
  | cons cls rest =>
    rw [importsOf, List.mem_append, mem_imports_iff cls, mem_importsOf_iff rest]
    simp only [withinAll, List.mem_append, or_and_right, exists_or]
end

end Class

namespace Module

variable {name : String} {unit : Module}

/-- All classes of a module, at any depth. -/
def allClasses (unit : Module) : List Class := Class.withinAll unit.classes

/-- All functions of a module and all methods of its classes. -/
def allFunctions (unit : Module) : List Function := unit.functions ++ unit.allClasses.flatMap Class.methods

/-- All constants of a module and of its classes. -/
def allConstants (unit : Module) : List Constant := unit.constants ++ unit.allClasses.flatMap Class.constants

/-- All types that the declarations of a module show. -/
def shownTypes (unit : Module) : List TypeExpr :=
  unit.allFunctions.flatMap Function.shownTypes ++
    (unit.allConstants.map Constant.type ++ unit.allClasses.flatMap Class.headerTypes)

/-- The typing names that the declarations of a module use: `overload` where a function or a method has
several signatures, and those that a shown type is written with, at any depth. -/
def Uses (unit : Module) (name : String) : Prop :=
  (name = "overload" ∧ ∃ f ∈ unit.allFunctions, 1 < f.signatures.length) ∨
    ∃ ty ∈ unit.shownTypes, ∃ part ∈ ty.parts, part.WrittenWith name

/-- What is collected for a module are the typing names that its declarations use. -/
theorem mem_imports_iff : name ∈ unit.imports ↔ unit.Uses name := by
  have functions : (∃ f ∈ unit.allFunctions, f.Uses name) ↔
      (name = "overload" ∧ ∃ f ∈ unit.allFunctions, 1 < f.signatures.length) ∨
        TypeExpr.SomeUses (unit.allFunctions.flatMap Function.shownTypes) name := by
    rw [TypeExpr.someUses_flatMap]
    simp only [Function.Uses, and_or_left, exists_or, and_left_comm, exists_and_left]
  have methods : (∃ f ∈ unit.allFunctions, f.Uses name) ↔
      name ∈ unit.functions.flatMap Function.imports ∨
        ∃ c ∈ unit.allClasses, ∃ f ∈ c.methods, f.Uses name := by
    simp only [allFunctions, List.mem_append, or_and_right, exists_or, exists_mem_flatMap]
    simp only [List.mem_flatMap, Function.mem_imports_iff]
  have constants : TypeExpr.SomeUses (unit.allConstants.map Constant.type) name ↔
      (name ∈ unit.constants.flatMap fun constant => constant.type.imports) ∨
        ∃ c ∈ unit.allClasses, TypeExpr.SomeUses (c.constants.map Constant.type) name := by
    rw [allConstants, List.map_append, List.map_flatMap, TypeExpr.someUses_append, TypeExpr.someUses_flatMap,
      ← TypeExpr.mem_flatMap_imports_iff, List.flatMap_map]
  have classes : name ∈ Class.importsOf unit.classes ↔
      ((∃ c ∈ unit.allClasses, TypeExpr.SomeUses c.headerTypes name) ∨
        ∃ c ∈ unit.allClasses, TypeExpr.SomeUses (c.constants.map Constant.type) name) ∨
          ∃ c ∈ unit.allClasses, ∃ f ∈ c.methods, f.Uses name := by
    rw [Class.mem_importsOf_iff]
    simp only [Class.Uses, TypeExpr.someUses_append, and_or_left, exists_or, allClasses]
  have uses : unit.Uses name ↔ (∃ f ∈ unit.allFunctions, f.Uses name) ∨
      TypeExpr.SomeUses (unit.allConstants.map Constant.type) name ∨
        ∃ c ∈ unit.allClasses, TypeExpr.SomeUses c.headerTypes name := by
    rw [functions, or_assoc, ← TypeExpr.someUses_flatMap, ← TypeExpr.someUses_append,
      ← TypeExpr.someUses_append]
    rfl
  rw [uses, methods, constants, imports, List.mem_append, List.mem_append, classes]
  exact iff_of_eq (by ac_rfl)

end Module

/-! ## Sorted names -/

theorem mem_sortedNames {names : List String} {name : String} : name ∈ sortedNames names ↔ name ∈ names := by
  rw [sortedNames, List.mem_eraseDups, List.mem_mergeSort]

/-- Every name is less than the later ones. -/
theorem pairwise_sortedNames (names : List String) : (sortedNames names).Pairwise (· < ·) := by
  have sorted : (names.mergeSort fun a b => decide (a ≤ b)).Pairwise fun a b => decide (a ≤ b) = true := by
    apply List.pairwise_mergeSort
    · intro a b c hab hbc
      exact decide_eq_true (String.le_trans (of_decide_eq_true hab) (of_decide_eq_true hbc))
    · intro a b
      simpa using String.le_total a b
  rw [sortedNames, ← firstOccurrences_beq]
  have distinct := nodup_firstOccurrences_beq (names.mergeSort fun a b => decide (a ≤ b))
  have ordered := sorted.sublist (firstOccurrences_sublist (· == ·) _)
  refine (distinct.and ordered).imp fun {a b} ⟨ne, le⟩ => ?_
  by_contra less
  exact ne (String.le_antisymm (of_decide_eq_true le) (String.not_lt.mp less))

/-! ## Texts that are not empty -/

section Texts

variable {mark part : String} {parts : List String}

theorem join_ne_empty (h : part ∈ parts) (some : part ≠ "") : String.join parts ≠ "" := by
  induction parts with
  | nil => cases h
  | cons first rest ih =>
    rw [String.join_cons, ne_eq, String.append_eq_empty_iff, not_and_or]
    rcases List.mem_cons.mp h with rfl | h
    · exact .inl some
    · exact .inr (ih h)

theorem intercalate_ne_empty (h : part ∈ parts) (some : part ≠ "") : mark.intercalate parts ≠ "" := by
  induction parts with
  | nil => cases h
  | cons first rest ih =>
    cases rest with
    | nil =>
      obtain rfl := List.mem_singleton.mp h
      rwa [String.intercalate_singleton]
    | cons next rest =>
      rw [String.intercalate_cons_cons, ne_eq, String.append_eq_empty_iff, String.append_eq_empty_iff,
        not_and_or, not_and_or]
      rcases List.mem_cons.mp h with rfl | h
      · exact .inl (.inl some)
      · exact .inr (ih h)

end Texts

theorem Constant.text_ne_empty (indent : String) (constant : Constant) : constant.text indent ≠ "" := by
  simp [text]

/-- A function that uses a typing name has a signature, and its lines are not empty. -/
theorem Function.text_ne_empty {function : Function} {name : String} (indent : String)
    (used : name ∈ function.imports) : function.text indent ≠ "" := by
  cases signatures : function.signatures with
  | nil => simp [imports, overloaded, signatures] at used
  | cons signature rest =>
    rw [text, signatures]
    refine join_ne_empty (List.mem_map_of_mem List.mem_cons_self) ?_
    simp [String.append_eq_empty_iff]

theorem Class.text_ne_empty (indent : String) (cls : Class) : cls.text indent ≠ "" := by
  cases cls with
  | mk name bases keywords constants methods classes =>
    rw [text]
    dsimp only
    split <;> simp [String.append_eq_empty_iff]

namespace Module

variable {name : String} {unit : Module}

/-- Declarations that use a typing name are not empty. -/
theorem body_ne_empty (used : name ∈ unit.imports) : unit.body ≠ "" := by
  suffices shown : ∃ part ∈ (if unit.constants.isEmpty then []
        else [String.join (unit.constants.map (Constant.text ""))]) ++
      (if unit.functions.isEmpty then [] else [String.join (unit.functions.map (Function.text ""))]) ++
        Class.texts "" unit.classes, part ≠ "" by
    obtain ⟨part, member, some⟩ := shown
    exact intercalate_ne_empty member some
  rw [imports, List.mem_append, List.mem_append] at used
  rcases used with (constant | function) | cls
  · obtain ⟨constant, member, -⟩ := List.mem_flatMap.mp constant
    refine ⟨String.join (unit.constants.map (Constant.text "")), ?_,
      join_ne_empty (List.mem_map_of_mem member) (constant.text_ne_empty "")⟩
    simp [List.ne_nil_of_mem member]
  · obtain ⟨function, member, used⟩ := List.mem_flatMap.mp function
    refine ⟨String.join (unit.functions.map (Function.text "")), ?_,
      join_ne_empty (List.mem_map_of_mem member) (function.text_ne_empty "" used)⟩
    simp [List.ne_nil_of_mem member]
  · cases classes : unit.classes with
    | nil =>
      rw [classes] at cls
      cases cls
    | cons first rest =>
      exact ⟨first.text "", List.mem_append_right _ List.mem_cons_self, first.text_ne_empty ""⟩

end Module

/-! ## Texts that start in another way -/

theorem takeWhile_blank {word : List Char} (plain : ' ' ∉ word) (rest : List Char) :
    (word ++ ' ' :: rest).takeWhile (· != ' ') = word := by
  have pass : ∀ c ∈ word, (c != ' ') = true := fun c hc => bne_iff_ne.mpr fun same => plain (same ▸ hc)
  rw [List.takeWhile_append_of_pos pass, List.takeWhile_cons_of_neg (by decide), List.append_nil]

/-- A text that does not start like an import line. -/
def StartsOtherwise (text : String) : Prop := text.toList.head? ≠ some 'f'

section Starts

variable {text more mark : String} {parts : List String}

theorem StartsOtherwise.append (h : StartsOtherwise text) (h' : StartsOtherwise more) :
    StartsOtherwise (text ++ more) := by
  unfold StartsOtherwise at *
  rw [String.toList_append, List.head?_append]
  cases first : text.toList.head? with
  | none => exact h'
  | some c => rwa [first] at h

theorem startsOtherwise_join (h : ∀ part ∈ parts, StartsOtherwise part) :
    StartsOtherwise (String.join parts) := by
  induction parts with
  | nil => exact nofun
  | cons first rest ih =>
    obtain ⟨here, others⟩ := List.forall_mem_cons.mp h
    rw [String.join_cons]
    exact here.append (ih others)

theorem toList_intercalate_cons (mark part : String) (parts : List String) :
    ∃ more, (mark.intercalate (part :: parts)).toList = part.toList ++ more := by
  cases parts with
  | nil => exact ⟨[], by rw [String.intercalate_singleton, List.append_nil]⟩
  | cons next parts =>
    rw [String.intercalate_cons_cons, String.append_assoc, String.toList_append]
    exact ⟨_, rfl⟩

theorem startsOtherwise_intercalate (between : StartsOtherwise mark)
    (h : ∀ part ∈ parts, StartsOtherwise part) : StartsOtherwise (mark.intercalate parts) := by
  induction parts with
  | nil => exact nofun
  | cons first rest ih =>
    obtain ⟨here, others⟩ := List.forall_mem_cons.mp h
    cases rest with
    | nil => rwa [String.intercalate_singleton]
    | cons next rest =>
      rw [String.intercalate_cons_cons]
      exact (here.append between).append (ih others)

end Starts

theorem Function.startsOtherwise_text (function : Function) : StartsOtherwise (function.text "") := by
  rw [text]
  apply startsOtherwise_join
  rw [List.forall_mem_map]
  intro signature _
  split <;> simp [StartsOtherwise]

theorem Class.startsOtherwise_text (cls : Class) : StartsOtherwise (cls.text "") := by
  cases cls with
  | mk name bases keywords constants methods classes =>
    rw [text]
    dsimp only
    split <;> simp [StartsOtherwise, classHeader]

theorem Class.startsOtherwise_texts (classes : List Class) :
    ∀ part ∈ texts "" classes, StartsOtherwise part := by
  induction classes with
  | nil => nofun
  | cons cls rest ih =>
    rw [texts]
    exact List.forall_mem_cons.mpr ⟨cls.startsOtherwise_text, ih⟩

namespace Module

variable {unit : Module}

/-- Without constants, the declarations start with a function or a class. -/
theorem startsOtherwise_body (none : unit.constants = []) : StartsOtherwise unit.body := by
  rw [body, none, List.isEmpty_nil, if_pos rfl, List.nil_append]
  apply startsOtherwise_intercalate
  · simp [StartsOtherwise]
  · intro part member
    rcases List.mem_append.mp member with function | cls
    · split at function
      · cases function
      · obtain rfl := List.mem_singleton.mp function
        apply startsOtherwise_join
        rw [List.forall_mem_map]
        exact fun function _ => function.startsOtherwise_text
    · exact Class.startsOtherwise_texts unit.classes part cls

/-- Constants come first, each with a colon and a blank behind its name. -/
theorem toList_body_of_constants {constant : Constant} {others : List Constant}
    (some : unit.constants = constant :: others) :
    ∃ more, unit.body.toList = (constant.name.toList ++ [':']) ++ ' ' :: more := by
  obtain ⟨more, starts⟩ := toList_intercalate_cons "\n"
    (String.join ((constant :: others).map (Constant.text "")))
    ((if unit.functions.isEmpty then [] else [String.join (unit.functions.map (Function.text ""))]) ++
      Class.texts "" unit.classes)
  have line : constant.text "" = constant.name ++ ": " ++ (constant.type.text ++ "\n") := by
    simp [Constant.text, String.append_assoc]
  rw [body, some, List.isEmpty_cons, if_neg Bool.false_ne_true, List.append_assoc,
    List.singleton_append, starts, List.map_cons, String.join_cons, line]
  refine ⟨(constant.type.text ++ "\n" ++ String.join (others.map (Constant.text ""))).toList ++ more, ?_⟩
  simp

/-- Declarations do not look like an import line, as long as the first constant has no blank in its name. -/
theorem not_prefix_body (named : ∀ constant ∈ unit.constants, ' ' ∉ constant.name.toList) :
    ¬ "from typing import ".toList <+: unit.body.toList := by
  rintro ⟨rest, start⟩
  have blank : unit.body.toList = "from".toList ++ ' ' :: ("typing import ".toList ++ rest) := start.symm
  cases constants : unit.constants with
  | nil => exact startsOtherwise_body constants (by rw [blank]; rfl)
  | cons constant others =>
    obtain ⟨more, line⟩ := toList_body_of_constants constants
    rw [constants] at named
    have plain : ' ' ∉ constant.name.toList ++ [':'] := by
      simpa using named constant List.mem_cons_self
    have apart : ' ' ∉ "from".toList := by decide
    -- up to the first blank there is the name with its colon, so it is not the word of an import line
    have header := takeWhile_blank apart ("typing import ".toList ++ rest)
    have word : "from".toList = constant.name.toList ++ [':'] := by
      rw [← header, ← blank, line, takeWhile_blank plain]
    have colon : ':' ∈ "from".toList := word ▸ List.mem_append_right _ (List.mem_singleton_self _)
    exact absurd colon (by decide)

/-- The import line of a stub is exact. It lists the typing names that the declarations use, which are those
in the text of the declarations, in order and without repetitions, and is left out if there are none. Nothing
else in a stub looks like it. -/
theorem import_line (unit : Module) : ∃ names : List String,
    names.Pairwise (· < ·) ∧
    (∀ name, name ∈ names ↔ unit.Uses name) ∧
    render unit.pieces = unit.body ∧
    (∀ name, name ∈ names ↔ .typing name ∈ unit.pieces) ∧
    unit.text = (if names = [] then "" else "from typing import " ++ ", ".intercalate names ++ "\n\n") ++
      unit.body ∧
    ((∀ constant ∈ unit.constants, ' ' ∉ constant.name.toList) →
      ("from typing import ".toList <+: unit.text.toList ↔ names ≠ [])) := by
  have members (name : String) : name ∈ sortedNames unit.imports ↔ name ∈ unit.imports := mem_sortedNames
  have whole : unit.text = (if sortedNames unit.imports = [] then ""
      else "from typing import " ++ ", ".intercalate (sortedNames unit.imports) ++ "\n\n") ++ unit.body := by
    rw [text]
    by_cases none : sortedNames unit.imports = []
    · rw [if_pos none, if_pos (List.isEmpty_iff.mpr none)]
    · obtain ⟨name, listed⟩ := List.exists_mem_of_ne_nil _ none
      have some : ¬ unit.body.isEmpty = true := by
        rw [String.isEmpty_iff]
        exact body_ne_empty ((members name).mp listed)
      rw [if_neg none, if_neg (mt List.isEmpty_iff.mp none), if_neg some]
      simp [String.append_assoc]
  refine ⟨sortedNames unit.imports, pairwise_sortedNames _, fun name => (members name).trans mem_imports_iff,
    render_pieces unit, fun name => (members name).trans typing_mem_pieces_iff.symm, whole, fun named => ?_⟩
  rw [whole]
  -- what starts like an import line is the line itself, since the declarations do not
  by_cases none : sortedNames unit.imports = []
  · rw [if_pos none, String.empty_append]
    exact iff_of_false (not_prefix_body named) (not_not_intro none)
  · rw [if_neg none]
    refine iff_of_true ⟨(", ".intercalate (sortedNames unit.imports) ++ "\n\n" ++ unit.body).toList, ?_⟩ none
    simp [String.append_assoc]

/-- An inner class has an overloaded method, a base from `typing` and `object` as another base, and no
parameter that may be anything shows so. -/
theorem import_line_of_overloads :
    let get : Function := ⟨"get", [⟨[.any "self"], some (.any "args"), none, .builtin "int"⟩,
      ⟨[.any "self", ⟨"key", .callable .nothing, .keywordOnly, true⟩], none, none, .builtin "str"⟩]⟩
    let inner : Class :=
      .mk "Inner" [.builtin "object", .generic "typing.Generic" [.named "T"]] [] [] [get] []
    let unit : Module := ⟨"m", [⟨"x", .union [.builtin "int", .none]⟩], [],
      [.mk "Outer" [.builtin "object"] [] [] [] [inner]]⟩
    ∃ names : List String, names.Pairwise (· < ·) ∧
      (∀ name ∈ ["Callable", "Generic", "NoReturn", "overload"], name ∈ names ∧ .typing name ∈ unit.pieces) ∧
      "Any" ∉ names ∧ "from typing import ".toList <+: unit.text.toList := by
  intro get inner unit
  obtain ⟨names, sorted, uses, -, printed, -, starts⟩ := import_line unit
  have imported (name : String) : name ∈ names ↔ name ∈ unit.imports := (uses name).trans mem_imports_iff.symm
  have listed : ∀ name ∈ ["Callable", "Generic", "NoReturn", "overload"], name ∈ unit.imports := by decide
  have overload : "overload" ∈ names := (imported _).mpr (listed _ (by decide))
  refine ⟨names, sorted, fun name member => ?_, mt (imported _).mp (by decide),
    (starts (by decide)).mpr (List.ne_nil_of_mem overload)⟩
  have here := (imported name).mpr (listed name member)
  exact ⟨here, (printed name).mp here⟩

end Module

end StubInference.Stub
