import StubInference.Stub.Printer

/-!
# Texts in pieces

The typing names for the import line of a stub are collected apart from its text. So the text is made a
second time here, from pieces that tell a typing name from other text. It is the same text, and what is
collected are just the typing names among its pieces. This holds for every part of a stub: where a part of
a declaration is not printed, nothing is collected for it either.

## Main definitions

* `Stub.Piece`, `Stub.render` — the pieces that a text is made of
* `Stub.TypeExpr.pieces`, `Stub.Function.pieces`, `Stub.Class.pieces`, `Stub.Module.pieces` — the pieces of
  types and declarations

## Main results

* `Stub.within?_eq_some_iff` — the names in a package
* `Stub.Module.render_pieces` — the pieces make up the text
* `Stub.Module.typing_mem_pieces_iff` — which typing names are collected
-/

namespace StubInference.Stub

/-! ## Pieces of text -/

/-- A piece of a text: a typing name or something else. -/
inductive Piece where
  | plain (text : String)
  | typing (name : String)

/-- The text of a piece. -/
def Piece.text : Piece → String
  | .plain text => text
  | .typing name => name

/-- The text that is made of pieces. -/
def render (pieces : List Piece) : String := String.join (pieces.map Piece.text)

/-- Parts with the same text between them. -/
def separated (mark : String) (parts : List (List Piece)) : List Piece :=
  [Piece.plain mark].intercalate parts

section Pieces

variable {pieces more : List Piece} {parts : List (List Piece)} {text mark name : String} {α : Type}

@[simp] theorem render_nil : render [] = "" := rfl

@[simp] theorem render_plain : render (.plain text :: pieces) = text ++ render pieces := by
  rw [render, List.map_cons, String.join_cons]
  rfl

@[simp] theorem render_typing : render (.typing name :: pieces) = name ++ render pieces := by
  rw [render, List.map_cons, String.join_cons]
  rfl

@[simp] theorem render_append : render (pieces ++ more) = render pieces ++ render more := by
  rw [render, List.map_append, String.join_append]
  rfl

@[simp] theorem render_flatMap {items : List α} {shown : α → List Piece} :
    render (items.flatMap shown) = String.join (items.map fun item => render (shown item)) := by
  induction items with
  | nil => rfl
  | cons item items ih => rw [List.flatMap_cons, render_append, ih, List.map_cons, String.join_cons]

@[simp] theorem render_flatten : render parts.flatten = String.join (parts.map render) := by
  rw [List.flatten_eq_flatMap, render_flatMap]
  rfl

@[simp] theorem render_separated :
    render (separated mark parts) = mark.intercalate (parts.map render) := by
  induction parts with
  | nil => rfl
  | cons part parts ih =>
    cases parts with
    | nil => simp [separated]
    | cons next parts =>
      rw [separated, List.intercalate_cons_cons, ← separated, render_append, render_append, ih]
      simp [String.intercalate_cons_cons]

@[simp] theorem typing_mem_plain : .typing name ∈ Piece.plain text :: pieces ↔ .typing name ∈ pieces := by
  simp

@[simp] theorem typing_mem_separated :
    .typing name ∈ separated mark parts ↔ ∃ part ∈ parts, .typing name ∈ part := by
  induction parts with
  | nil => simp [separated]
  | cons part parts ih =>
    cases parts with
    | nil => simp [separated]
    | cons next parts =>
      rw [separated, List.intercalate_cons_cons, ← separated, List.mem_append, List.mem_append, ih]
      simp

end Pieces

/-! ## Names of classes -/

/-- The pieces of the name of a class. -/
def classPieces (name : String) : List Piece :=
  if name = TypeExpr.noneName then [.plain "None"]
  else match within? "builtins" name with
    | some short => [.plain short]
    | none => match within? "typing" name with
      | some short => [.typing short]
      | none => [.plain name]

theorem render_classPieces (name : String) : render (classPieces name) = className name := by
  unfold classPieces className
  split
  · rfl
  · cases within? "builtins" name with
    | some short => simp
    | none => cases within? "typing" name <;> simp

/-- What follows the name of a package and a dot. -/
theorem within?_eq_some_iff {package name short : String} :
    within? package name = some short ↔ name = package ++ "." ++ short := by
  unfold within?
  dsimp only
  constructor
  · intro found
    split at found
    case isTrue start =>
      obtain ⟨rest, whole⟩ := List.isPrefixOf_iff_prefix.mp start
      cases found
      apply String.toList_injective
      rw [← whole]
      simp
    case isFalse => cases found
  · rintro rfl
    have start : (package.toList ++ ['.']).isPrefixOf (package ++ "." ++ short).toList = true :=
      List.isPrefixOf_iff_prefix.mpr ⟨short.toList, by simp⟩
    rw [if_pos start]
    simp

theorem mem_classImports_iff {name short : String} :
    short ∈ classImports name ↔ name = "typing." ++ short := by
  have dotted : "typing" ++ "." = "typing." := by decide
  rw [classImports, Option.mem_toList, within?_eq_some_iff, dotted]

/-- A name from `typing` is no name of another kind. -/
theorem classPieces_typing (short : String) : classPieces ("typing." ++ short) = [.typing short] := by
  have other : "typing." ++ short ≠ TypeExpr.noneName := fun same => by
    simpa [TypeExpr.noneName] using congrArg String.toList same
  have outside : within? "builtins" ("typing." ++ short) = none := by
    rw [Option.eq_none_iff_forall_ne_some]
    intro rest found
    simpa using congrArg String.toList (within?_eq_some_iff.mp found)
  have inside : within? "typing" ("typing." ++ short) = some short :=
    Option.mem_toList.mp (mem_classImports_iff.mpr rfl)
  rw [classPieces, if_neg other, outside, inside]

theorem typing_mem_classPieces_iff {name short : String} :
    .typing short ∈ classPieces name ↔ name = "typing." ++ short := by
  constructor
  · intro member
    unfold classPieces at member
    split at member
    · simp at member
    · split at member
      · simp at member
      · split at member
        case h_1 found =>
          cases List.mem_singleton.mp member
          exact mem_classImports_iff.mp (Option.mem_toList.mpr found)
        case h_2 => simp at member
  · rintro rfl
    rw [classPieces_typing]
    exact List.mem_singleton_self _

/-! ## Types -/

namespace TypeExpr

variable {name : String}

mutual
/-- The pieces of a type. -/
def pieces : TypeExpr → List Piece
  | .anything => [.typing "Any"]
  | .nothing => [.typing "NoReturn"]
  | .named name => classPieces name
  | .generic base parameters =>
    classPieces base ++ .plain "[" :: (separated ", " (piecesOf parameters) ++ [.plain "]"])
  | .callable result => .typing "Callable" :: .plain "[..., " :: (result.pieces ++ [.plain "]"])
  | .union members => separated " | " (piecesOf members)

/-- The pieces of several types. -/
def piecesOf : List TypeExpr → List (List Piece)
  | [] => []
  | ty :: rest => ty.pieces :: piecesOf rest
end

mutual
theorem render_pieces (ty : TypeExpr) : render ty.pieces = ty.text := by
  cases ty with
  | anything | nothing => rfl
  | named name => rw [pieces, render_classPieces, text]
  | generic base parameters =>
    rw [pieces, text, render_append, render_classPieces, render_plain, render_append, render_separated,
      map_render_piecesOf parameters, String.append_assoc, String.append_assoc]
    rfl
  | callable result =>
    rw [pieces, text, render_typing, render_plain, render_append, render_pieces result, ← String.append_assoc,
      ← String.append_assoc]
    rfl
  | union members => rw [pieces, text, render_separated, map_render_piecesOf members]

theorem map_render_piecesOf (types : List TypeExpr) : (piecesOf types).map render = texts types := by
  cases types with
  | nil => rfl
  | cons ty rest => rw [piecesOf, texts, List.map_cons, render_pieces ty, map_render_piecesOf rest]
end

mutual
/-- What is collected for a type are the typing names in its text. -/
theorem typing_mem_pieces_iff (ty : TypeExpr) : .typing name ∈ ty.pieces ↔ name ∈ ty.imports := by
  cases ty with
  | anything | nothing => simp [pieces, imports]
  | named base => rw [pieces, imports, typing_mem_classPieces_iff, mem_classImports_iff]
  | generic base parameters =>
    rw [pieces, imports, List.mem_append, List.mem_append, typing_mem_classPieces_iff, mem_classImports_iff,
      ← typing_mem_piecesOf_iff parameters]
    simp
  | callable result =>
    have inner : .typing name ∈ result.pieces ↔ name ∈ result.imports := typing_mem_pieces_iff result
    simp [pieces, imports, inner]
  | union members => rw [pieces, imports, typing_mem_separated, typing_mem_piecesOf_iff members]

theorem typing_mem_piecesOf_iff (types : List TypeExpr) :
    (∃ part ∈ piecesOf types, .typing name ∈ part) ↔ name ∈ importsOf types := by
  cases types with
  | nil => simp [piecesOf, importsOf]
  | cons ty rest =>
    rw [importsOf, List.mem_append, ← typing_mem_pieces_iff ty, ← typing_mem_piecesOf_iff rest]
    simp [piecesOf]
end

end TypeExpr

/-! ## Parameters -/

namespace Parameter

variable {name : String} {parameter : Parameter} {parameters : List Parameter}

/-- The pieces of a parameter. -/
def pieces (parameter : Parameter) : List Piece :=
  let shown := if parameter.annotated then .plain ": " :: parameter.type.pieces else []
  let default := if parameter.optional then (if parameter.annotated then " = ..." else "=...") else ""
  .plain parameter.name :: (shown ++ [.plain default])

theorem render_pieces (parameter : Parameter) : render parameter.pieces = parameter.text := by
  unfold pieces text
  dsimp only
  split <;> simp [TypeExpr.render_pieces, String.append_assoc]

theorem typing_mem_pieces_iff : .typing name ∈ parameter.pieces ↔ name ∈ parameter.imports := by
  unfold pieces imports
  dsimp only
  split <;> simp [TypeExpr.typing_mem_pieces_iff]

end Parameter

/-- The pieces of the star, alone or in front of its parameter. -/
def starPieces (starArgs : Option Parameter) : List Piece :=
  .plain "*" :: starArgs.toList.flatMap Parameter.pieces

/-- The pieces of the parameters with the markers between their kinds. -/
def parameterPieces (starArgs : Option Parameter) :
    (inPositional starDone : Bool) → List Parameter → List (List Piece)
  | inPositional, starDone, [] =>
    (if inPositional then [[.plain "/"]] else []) ++
      (if starDone then [] else (starArgs.map fun p => .plain "*" :: p.pieces).toList)
  | inPositional, starDone, parameter :: rest =>
    let slash := if inPositional && parameter.kind ≠ .positionalOnly then [[.plain "/"]] else []
    let star := parameter.kind = .keywordOnly && !starDone
    let marker := if star then [starPieces starArgs] else []
    slash ++ marker ++ parameter.pieces ::
      parameterPieces starArgs (parameter.kind = .positionalOnly) (starDone || star) rest

section Parameters

variable {name : String} {starArgs : Option Parameter} {parameters : List Parameter}

theorem map_render_parameterPieces (inPositional starDone : Bool) :
    (parameterPieces starArgs inPositional starDone parameters).map render =
      parameterParts starArgs inPositional starDone parameters := by
  induction parameters generalizing inPositional starDone with
  | nil =>
    cases inPositional <;> cases starDone <;> cases starArgs <;>
      simp [parameterPieces, parameterParts, Parameter.render_pieces]
  | cons parameter rest ih =>
    simp only [parameterPieces, parameterParts, List.map_append, List.map_cons, ih, Parameter.render_pieces]
    congr 1
    congr 1
    · split <;> simp
    · split <;> cases starArgs <;> simp [starPieces, Parameter.render_pieces]

/-- The star shows its type once, wherever it stands. -/
theorem typing_mem_parameterPieces_iff (inPositional starDone : Bool) :
    (∃ part ∈ parameterPieces starArgs inPositional starDone parameters, .typing name ∈ part) ↔
      name ∈ parameters.flatMap Parameter.imports ∨
        starDone = false ∧ name ∈ starArgs.toList.flatMap Parameter.imports := by
  induction parameters generalizing inPositional starDone with
  | nil =>
    cases inPositional <;> cases starDone <;> cases starArgs <;>
      simp [parameterPieces, Parameter.typing_mem_pieces_iff]
  | cons parameter rest ih =>
    have slash (c : Bool) :
        (∃ part ∈ if c then [[Piece.plain "/"]] else [], .typing name ∈ part) ↔ False := by
      cases c <;> simp
    have marker (c : Bool) : (∃ part ∈ if c then [starPieces starArgs] else [], .typing name ∈ part) ↔
        c = true ∧ name ∈ starArgs.toList.flatMap Parameter.imports := by
      cases c <;> cases starArgs <;> simp [starPieces, Parameter.typing_mem_pieces_iff]
    simp only [parameterPieces, List.mem_append, List.mem_cons, or_and_right, exists_or, exists_eq_left,
      slash, marker, ih, Parameter.typing_mem_pieces_iff, List.flatMap_cons]
    -- the star stands before this parameter, was shown before, or is left to the others
    cases starDone <;> by_cases keywordOnly : parameter.kind = .keywordOnly <;>
      simp [keywordOnly, or_assoc, or_comm]

end Parameters

/-! ## Signatures -/

namespace Signature

variable {name : String} {signature : Signature}

/-- The pieces between the parentheses of a signature. -/
def parameterPieces (signature : Signature) : List Piece :=
  let parts := Stub.parameterPieces signature.starArgs false false signature.parameters
  let last := (signature.starStarArgs.map fun p => .plain "**" :: p.pieces).toList
  separated ", " (parts ++ last)

theorem render_parameterPieces (signature : Signature) :
    render signature.parameterPieces = signature.parameterText := by
  rw [parameterPieces, parameterText, render_separated, List.map_append, map_render_parameterPieces]
  cases signature.starStarArgs <;> simp [Parameter.render_pieces]

theorem typing_mem_pieces_iff :
    .typing name ∈ signature.parameterPieces ∨ .typing name ∈ signature.returnType.pieces ↔
      name ∈ signature.imports := by
  have last : (∃ part ∈ (signature.starStarArgs.map fun p => Piece.plain "**" :: p.pieces).toList,
      .typing name ∈ part) ↔ name ∈ signature.starStarArgs.toList.flatMap Parameter.imports := by
    cases signature.starStarArgs <;> simp [Parameter.typing_mem_pieces_iff]
  simp only [parameterPieces, typing_mem_separated, List.mem_append, or_and_right, exists_or, last,
    typing_mem_parameterPieces_iff, true_and, TypeExpr.typing_mem_pieces_iff, imports]

end Signature

/-! ## Constants and functions -/

/-- The pieces of the line of a constant. -/
def Constant.pieces (indent : String) (constant : Constant) : List Piece :=
  .plain (indent ++ constant.name ++ ": ") :: (constant.type.pieces ++ [.plain "\n"])

theorem Constant.render_pieces (indent : String) (constant : Constant) :
    render (constant.pieces indent) = constant.text indent := by
  simp [pieces, text, TypeExpr.render_pieces, String.append_assoc]

theorem Constant.typing_mem_pieces_iff {name indent : String} {constant : Constant} :
    .typing name ∈ constant.pieces indent ↔ name ∈ constant.type.imports := by
  rw [← TypeExpr.typing_mem_pieces_iff]
  simp [pieces]

namespace Function

variable {name indent : String} {function : Function}

/-- The pieces of the line above an overload. -/
def overloadPieces (indent : String) : List Piece :=
  [.plain (indent ++ "@"), .typing "overload", .plain "\n"]

theorem render_overloadPieces (indent : String) :
    render (overloadPieces indent) = indent ++ "@overload\n" := by
  simp [overloadPieces, String.append_assoc]

/-- The pieces of the lines of a function. -/
def pieces (indent : String) (function : Function) : List Piece :=
  let mark := if function.overloaded then overloadPieces indent else []
  function.signatures.flatMap fun signature =>
    mark ++ .plain (indent ++ "def " ++ function.name ++ "(") :: (signature.parameterPieces ++
      .plain ") -> " :: (signature.returnType.pieces ++ [.plain ": ...\n"]))

theorem render_pieces (indent : String) (function : Function) :
    render (function.pieces indent) = function.text indent := by
  unfold pieces text
  rw [render_flatMap]
  dsimp only
  split <;> simp [render_overloadPieces, Signature.render_parameterPieces, TypeExpr.render_pieces,
    String.append_assoc]

/-- A function that is marked as an overload is marked above every signature, and there are some. -/
theorem typing_mem_pieces_iff : .typing name ∈ function.pieces indent ↔ name ∈ function.imports := by
  have line (signature : Signature) :
      .typing name ∈ Piece.plain (indent ++ "def " ++ function.name ++ "(") :: (signature.parameterPieces ++
        .plain ") -> " :: (signature.returnType.pieces ++ [.plain ": ...\n"])) ↔
        name ∈ signature.imports := by
    rw [← Signature.typing_mem_pieces_iff]
    simp
  have mark : .typing name ∈ (if function.overloaded then overloadPieces indent else []) ↔
      function.overloaded = true ∧ name = "overload" := by
    split <;> simp_all [overloadPieces]
  simp only [pieces, imports, List.mem_flatMap, List.mem_append, mark, line]
  constructor
  · rintro ⟨signature, member, ⟨several, rfl⟩ | used⟩
    · exact .inl (by rw [if_pos several]; exact List.mem_singleton_self _)
    · exact .inr ⟨signature, member, used⟩
  · rintro (marked | ⟨signature, member, used⟩)
    · split at marked
      case isTrue several =>
        obtain ⟨first, member⟩ :=
          List.exists_mem_of_length_pos (Nat.lt_trans Nat.zero_lt_one (of_decide_eq_true several))
        exact ⟨first, member, .inl ⟨several, List.mem_singleton.mp marked⟩⟩
      case isFalse => cases marked
    · exact ⟨signature, member, .inr used⟩

end Function

/-! ## Classes -/

/-- The pieces of what stands in parentheses behind the name of a class. -/
def headerParts (bases : List TypeExpr) (keywords : List (String × TypeExpr)) : List (List Piece) :=
  (shownBases bases).map TypeExpr.pieces ++
    keywords.map fun entry => .plain (entry.1 ++ "=") :: entry.2.pieces

/-- The pieces of the first line of a class without its colon. -/
def classHeaderPieces (indent name : String) (bases : List TypeExpr)
    (keywords : List (String × TypeExpr)) : List Piece :=
  let parts := headerParts bases keywords
  .plain (indent ++ "class " ++ name) ::
    if parts.isEmpty then [] else .plain "(" :: (separated ", " parts ++ [.plain ")"])

section Header

variable {indent name typing : String} {bases : List TypeExpr} {keywords : List (String × TypeExpr)}

theorem render_classHeaderPieces :
    render (classHeaderPieces indent name bases keywords) = classHeader indent name bases keywords := by
  have texts : (headerParts bases keywords).map render = (shownBases bases).map TypeExpr.text ++
      keywords.map fun entry => entry.1 ++ "=" ++ entry.2.text := by
    simp [headerParts, TypeExpr.render_pieces, Function.comp_def]
  have header : classHeader indent name bases keywords = indent ++ "class " ++ name ++
      (if ((headerParts bases keywords).map render).isEmpty then ""
        else "(" ++ ", ".intercalate ((headerParts bases keywords).map render) ++ ")") := by
    rw [texts]
    rfl
  rw [classHeaderPieces, header, List.isEmpty_map]
  split <;> simp [String.append_assoc]

theorem typing_mem_classHeaderPieces_iff : .typing typing ∈ classHeaderPieces indent name bases keywords ↔
    typing ∈ (shownBases bases).flatMap TypeExpr.imports ++
      keywords.flatMap fun entry => entry.2.imports := by
  have parts : .typing typing ∈ (headerParts bases keywords).flatten ↔
      typing ∈ (shownBases bases).flatMap TypeExpr.imports ++
        keywords.flatMap fun entry => entry.2.imports := by
    rw [headerParts, List.flatten_append, ← List.flatMap_def, ← List.flatMap_def]
    simp only [List.mem_append, List.mem_flatMap, typing_mem_plain, TypeExpr.typing_mem_pieces_iff]
  rw [← parts, classHeaderPieces, typing_mem_plain]
  split
  case isTrue none =>
    rw [List.isEmpty_iff.mp none]
    exact .rfl
  case isFalse => simp [typing_mem_separated]

end Header

namespace Class

variable {name : String}

mutual
/-- The pieces of the lines of a class. -/
def pieces (indent : String) : Class → List Piece
  | .mk name bases keywords constants methods classes =>
    let header := classHeaderPieces indent name bases keywords
    if constants.isEmpty && methods.isEmpty && classes.isEmpty then header ++ [.plain ": ...\n"]
    else
      let inner := indent ++ "    "
      header ++ .plain ":\n" :: (constants.flatMap (Constant.pieces inner) ++
        methods.flatMap (Function.pieces inner) ++ (piecesOf inner classes).flatten)

/-- The pieces of the lines of several classes. -/
def piecesOf (indent : String) : List Class → List (List Piece)
  | [] => []
  | cls :: rest => cls.pieces indent :: piecesOf indent rest
end

mutual
theorem render_pieces (indent : String) (cls : Class) : render (cls.pieces indent) = cls.text indent := by
  cases cls with
  | mk name bases keywords constants methods classes =>
    have inner := map_render_piecesOf (indent ++ "    ") classes
    rw [pieces, text]
    dsimp only
    split <;> simp [render_classHeaderPieces, Constant.render_pieces, Function.render_pieces, inner,
      String.append_assoc]

theorem map_render_piecesOf (indent : String) (classes : List Class) :
    (piecesOf indent classes).map render = texts indent classes := by
  cases classes with
  | nil => rfl
  | cons cls rest =>
    rw [piecesOf, texts, List.map_cons, render_pieces indent cls, map_render_piecesOf indent rest]
end

mutual
/-- What is collected for a class are the typing names in its lines. -/
theorem typing_mem_pieces_iff (indent : String) (cls : Class) :
    .typing name ∈ cls.pieces indent ↔ name ∈ cls.imports := by
  cases cls with
  | mk title bases keywords constants methods classes =>
    have inner := typing_mem_piecesOf_iff (indent ++ "    ") classes
    rw [pieces, imports]
    dsimp only
    split
    case isTrue empty =>
      simp only [Bool.and_eq_true, List.isEmpty_iff] at empty
      obtain ⟨⟨rfl, rfl⟩, rfl⟩ := empty
      simp [typing_mem_classHeaderPieces_iff, importsOf]
    case isFalse =>
      rw [← List.mem_flatten] at inner
      simp only [List.mem_append, typing_mem_plain, typing_mem_classHeaderPieces_iff, inner, List.mem_flatMap,
        Constant.typing_mem_pieces_iff, Function.typing_mem_pieces_iff, or_assoc]

theorem typing_mem_piecesOf_iff (indent : String) (classes : List Class) :
    (∃ part ∈ piecesOf indent classes, .typing name ∈ part) ↔ name ∈ importsOf classes := by
  cases classes with
  | nil => simp [piecesOf, importsOf]
  | cons cls rest =>
    rw [importsOf, List.mem_append, ← typing_mem_pieces_iff indent cls, ← typing_mem_piecesOf_iff indent rest]
    simp [piecesOf]
end

end Class

/-! ## Modules -/

namespace Module

variable {name : String} {unit : Module}

/-- The pieces of the declarations of a module. -/
def pieces (unit : Module) : List Piece :=
  let constants := if unit.constants.isEmpty then [] else [unit.constants.flatMap (Constant.pieces "")]
  let functions := if unit.functions.isEmpty then [] else [unit.functions.flatMap (Function.pieces "")]
  separated "\n" (constants ++ functions ++ Class.piecesOf "" unit.classes)

/-- The pieces make up the text of the declarations. -/
theorem render_pieces (unit : Module) : render unit.pieces = unit.body := by
  rw [pieces, body, render_separated, List.map_append, List.map_append, Class.map_render_piecesOf]
  congr 3
  · split <;> simp [Constant.render_pieces]
  · split <;> simp [Function.render_pieces]

/-- What is collected for a module are the typing names in its text. -/
theorem typing_mem_pieces_iff : .typing name ∈ unit.pieces ↔ name ∈ unit.imports := by
  have constants : .typing name ∈ (if unit.constants.isEmpty then []
      else [unit.constants.flatMap (Constant.pieces "")]).flatten ↔
        name ∈ unit.constants.flatMap fun constant => constant.type.imports := by
    split <;> simp_all [Constant.typing_mem_pieces_iff]
  have functions : .typing name ∈ (if unit.functions.isEmpty then []
      else [unit.functions.flatMap (Function.pieces "")]).flatten ↔
        name ∈ unit.functions.flatMap Function.imports := by
    split <;> simp_all [Function.typing_mem_pieces_iff]
  have classes := @Class.typing_mem_piecesOf_iff name "" unit.classes
  rw [← List.mem_flatten] at classes
  rw [pieces, imports, typing_mem_separated, ← List.mem_flatten, List.flatten_append, List.flatten_append]
  simp only [List.mem_append, constants, functions, classes]

end Module

end StubInference.Stub
