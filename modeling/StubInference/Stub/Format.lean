import StubInference.Json.Record
import StubInference.Stub.Basic

/-!
# The written form of declarations

Declarations are exchanged as data trees: records with a member per field and variants for types
and definitions.

## Main definitions

* `Stub.TypeExpr.toJson`, `Stub.TypeExpr.ofJson?` — types
* `Stub.Definition.toJson`, `Stub.Definition.ofJson?` — declarations of any kind
* `Stub.Module.toJson`, `Stub.Module.ofJson?` — modules
-/

namespace StubInference.Stub

/-- How deep the declarations that are read may be nested. -/
def depthLimit : Nat := 128

/-! ## Types -/

namespace TypeExpr

mutual
/-- The tree of a type. -/
def toJson : TypeExpr → Json
  | .anything => .text "Anything"
  | .nothing => .text "Nothing"
  | .named name => .object [("Class", .text name)]
  | .generic base parameters =>
    .object [("Generic",
      .object [("base", .text base), ("parameters", .array (toJsonAll parameters))])]
  | .callable result => .object [("Callable", result.toJson)]
  | .union members => .object [("Union", .array (toJsonAll members))]

/-- The trees of several types. -/
def toJsonAll : List TypeExpr → List Json
  | [] => []
  | ty :: rest => ty.toJson :: toJsonAll rest
end

/-- Read a type nested at most so deep. -/
def ofJson? : (depth : Nat) → Json → Option TypeExpr
  | 0, _ => Option.none
  | depth + 1, tree => do
    match ← tree.variant? with
    | ("Anything", Option.none) | ("Anything", some .null) => pure .anything
    | ("Nothing", Option.none) | ("Nothing", some .null) => pure .nothing
    | ("Class", some data) => data.asText?.map .named
    | ("Generic", some data) =>
      let fields ← data.fields? ["base", "parameters"]
      let base ← Json.required? fields "base" Json.asText?
      let parameters ← Json.required? fields "parameters" (Json.asList? (ofJson? depth))
      pure (.generic base parameters)
    | ("Callable", some data) => (ofJson? depth data).map .callable
    | ("Union", some data) => (data.asList? (ofJson? depth)).map .union
    | _ => Option.none

end TypeExpr

/-- Read a type. -/
def readType? (tree : Json) : Option TypeExpr := TypeExpr.ofJson? depthLimit tree

/-! ## Declarations -/

/-- The tree of a constant. -/
def Constant.toJson (constant : Constant) : Json :=
  .object [("name", .text constant.name), ("ty", constant.type.toJson)]

/-- Read a constant. -/
def Constant.ofJson? (tree : Json) : Option Constant := do
  let fields ← tree.fields? ["name", "ty"]
  pure ⟨← Json.required? fields "name" Json.asText?, ← Json.required? fields "ty" readType?⟩

/-- The word that stands for a parameter kind. -/
def ParameterKind.word : ParameterKind → String
  | .positionalOnly => "PositionalOnly"
  | .regular => "Regular"
  | .keywordOnly => "KeywordOnly"

/-- Read a parameter kind. -/
def ParameterKind.ofJson? (tree : Json) : Option ParameterKind := do
  match ← tree.variant? with
  | (name, none) | (name, some .null) =>
    [ParameterKind.positionalOnly, .regular, .keywordOnly].find? (·.word == name)
  | _ => none

/-- The tree of a parameter. -/
def Parameter.toJson (parameter : Parameter) : Json :=
  .object [("name", .text parameter.name), ("ty", parameter.type.toJson),
    ("kind", .text parameter.kind.word), ("optional", .bool parameter.optional)]

/-- Read a parameter. -/
def Parameter.ofJson? (tree : Json) : Option Parameter := do
  let fields ← tree.fields? ["name", "ty", "kind", "optional"]
  pure ⟨← Json.required? fields "name" Json.asText?, ← Json.required? fields "ty" readType?,
    ← Json.required? fields "kind" ParameterKind.ofJson?,
    ← Json.required? fields "optional" Json.asBool?⟩

/-- The tree of a signature. -/
def Signature.toJson (signature : Signature) : Json :=
  .object [("params", .array (signature.parameters.map Parameter.toJson)),
    ("starargs", .ofOption Parameter.toJson signature.starArgs),
    ("starstarargs", .ofOption Parameter.toJson signature.starStarArgs),
    ("return_type", signature.returnType.toJson)]

/-- Read a signature. -/
def Signature.ofJson? (tree : Json) : Option Signature := do
  let fields ← tree.fields? ["params", "starargs", "starstarargs", "return_type"]
  let star := Json.asOptional? Parameter.ofJson?
  pure ⟨← Json.required? fields "params" (Json.asList? Parameter.ofJson?),
    ← Json.optional? fields "starargs" none star, ← Json.optional? fields "starstarargs" none star,
    ← Json.required? fields "return_type" readType?⟩

/-- The tree of a function. -/
def Function.toJson (function : Function) : Json :=
  .object [("name", .text function.name),
    ("signatures", .array (function.signatures.map Signature.toJson))]

/-- Read a function. -/
def Function.ofJson? (tree : Json) : Option Function := do
  let fields ← tree.fields? ["name", "signatures"]
  pure ⟨← Json.required? fields "name" Json.asText?,
    ← Json.required? fields "signatures" (Json.asList? Signature.ofJson?)⟩

/-- The tree of a class keyword. -/
def keywordToJson (keyword : String × TypeExpr) : Json :=
  .array [.text keyword.1, keyword.2.toJson]

/-- Read a class keyword. -/
def keywordOfJson? (tree : Json) : Option (String × TypeExpr) := do
  match ← tree.asItems? with
  | [name, type] => pure (← name.asText?, ← readType? type)
  | _ => none

namespace Class

mutual
/-- The tree of a class. -/
def toJson : Class → Json
  | .mk name bases keywords constants methods classes =>
    .object [("name", .text name), ("bases", .array (TypeExpr.toJsonAll bases)),
      ("keywords", .array (keywords.map keywordToJson)),
      ("constants", .array (constants.map Constant.toJson)),
      ("methods", .array (methods.map Function.toJson)), ("classes", .array (toJsonAll classes))]

/-- The trees of several classes. -/
def toJsonAll : List Class → List Json
  | [] => []
  | cls :: rest => cls.toJson :: toJsonAll rest
end

/-- Read a class nested at most so deep. -/
def ofJson? : (depth : Nat) → Json → Option Class
  | 0, _ => none
  | depth + 1, tree => do
    let fields ← tree.fields? ["name", "bases", "keywords", "constants", "methods", "classes"]
    pure (.mk (← Json.required? fields "name" Json.asText?)
      (← Json.required? fields "bases" (Json.asList? readType?))
      (← Json.required? fields "keywords" (Json.asList? keywordOfJson?))
      (← Json.required? fields "constants" (Json.asList? Constant.ofJson?))
      (← Json.required? fields "methods" (Json.asList? Function.ofJson?))
      (← Json.required? fields "classes" (Json.asList? (ofJson? depth))))

end Class

/-- Read a class. -/
def readClass? (tree : Json) : Option Class := Class.ofJson? depthLimit tree

/-- The tree of a definition. -/
def Definition.toJson : Definition → Json
  | .constant declared => .object [("Constant", declared.toJson)]
  | .function declared => .object [("Function", declared.toJson)]
  | .classDef declared => .object [("Class", declared.toJson)]

/-- Read a definition. -/
def Definition.ofJson? (tree : Json) : Option Definition := do
  match ← tree.variant? with
  | ("Constant", some data) => (Constant.ofJson? data).map .constant
  | ("Function", some data) => (Function.ofJson? data).map .function
  | ("Class", some data) => (readClass? data).map .classDef
  | _ => none

/-- The tree of a module. -/
def Module.toJson (unit : Module) : Json :=
  .object [("name", .text unit.name), ("constants", .array (unit.constants.map Constant.toJson)),
    ("functions", .array (unit.functions.map Function.toJson)),
    ("classes", .array (Class.toJsonAll unit.classes))]

/-- Read a module. -/
def Module.ofJson? (tree : Json) : Option Module := do
  let fields ← tree.fields? ["name", "constants", "functions", "classes"]
  pure ⟨← Json.required? fields "name" Json.asText?,
    ← Json.required? fields "constants" (Json.asList? Constant.ofJson?),
    ← Json.required? fields "functions" (Json.asList? Function.ofJson?),
    ← Json.required? fields "classes" (Json.asList? readClass?)⟩

end StubInference.Stub
