import StubInference.Stub.Basic

/-!
# Stub text

Names from `builtins` are printed bare. Names from `typing` are printed bare too and are imported
by a header line. The text of every part is a function of that part alone, and so is the list of
typing names that occur in it: the header is computed from the second, not while printing.

## Main definitions

* `Stub.TypeExpr.text`, `Stub.TypeExpr.imports` — a type and the typing names in it
* `Stub.Module.body`, `Stub.Module.imports` — the declarations and the typing names in them
* `Stub.Module.text` — the whole stub
-/

namespace StubInference.Stub

/-- What follows a dotted package name, if the name starts with it. -/
def within? (package name : String) : Option String :=
  let start := package.toList ++ ['.']
  if start.isPrefixOf name.toList then some (String.ofList (name.toList.drop start.length))
  else none

/-- The printed name of a class. -/
def className (name : String) : String :=
  if name = TypeExpr.noneName then "None"
  else match within? "builtins" name with
    | some short => short
    | none => (within? "typing" name).getD name

/-- The typing name that a class name needs, if any. -/
def classImports (name : String) : List String := (within? "typing" name).toList

/-! ## Types -/

mutual
/-- The text of a type. -/
def TypeExpr.text : TypeExpr → String
  | .anything => "Any"
  | .nothing => "NoReturn"
  | .named name => className name
  | .generic base parameters =>
    className base ++ "[" ++ ", ".intercalate (texts parameters) ++ "]"
  | .callable result => "Callable[..., " ++ result.text ++ "]"
  | .union members => " | ".intercalate (texts members)

/-- The texts of several types. -/
def TypeExpr.texts : List TypeExpr → List String
  | [] => []
  | ty :: rest => ty.text :: texts rest
end

mutual
/-- The typing names that the text of a type uses. -/
def TypeExpr.imports : TypeExpr → List String
  | .anything => ["Any"]
  | .nothing => ["NoReturn"]
  | .named name => classImports name
  | .generic base parameters => classImports base ++ importsOf parameters
  | .callable result => "Callable" :: result.imports
  | .union members => importsOf members

/-- The typing names that the texts of several types use. -/
def TypeExpr.importsOf : List TypeExpr → List String
  | [] => []
  | ty :: rest => ty.imports ++ importsOf rest
end

/-! ## Parameters -/

/-- Whether a parameter shows its type. One that may be anything does not. -/
def Parameter.annotated (parameter : Parameter) : Bool := parameter.type ≠ .anything

/-- The text of a parameter. -/
def Parameter.text (parameter : Parameter) : String :=
  let annotation := if parameter.annotated then ": " ++ parameter.type.text else ""
  let default := if parameter.optional then (if parameter.annotated then " = ..." else "=...")
    else ""
  parameter.name ++ annotation ++ default

/-- The typing names that the text of a parameter uses. -/
def Parameter.imports (parameter : Parameter) : List String :=
  if parameter.annotated then parameter.type.imports else []

/-- The texts of the parameters with the markers between their kinds. `inPositional` says that a
positional-only parameter came before and its `/` is still to come, `starDone` that the star or the
`*args` parameter has been printed. -/
def parameterParts (starArgs : Option Parameter) :
    (inPositional starDone : Bool) → List Parameter → List String
  | inPositional, starDone, [] =>
    (if inPositional then ["/"] else []) ++
      (if starDone then [] else (starArgs.map fun p => "*" ++ p.text).toList)
  | inPositional, starDone, parameter :: rest =>
    let slash := if inPositional && parameter.kind ≠ .positionalOnly then ["/"] else []
    let star := parameter.kind = .keywordOnly && !starDone
    let marker := if star then
        [match starArgs with
          | some starArgs => "*" ++ starArgs.text
          | none => "*"]
      else []
    slash ++ marker ++ parameter.text ::
      parameterParts starArgs (parameter.kind = .positionalOnly) (starDone || star) rest

/-- The text between the parentheses of a signature. -/
def Signature.parameterText (signature : Signature) : String :=
  let parts := parameterParts signature.starArgs false false signature.parameters
  let last := (signature.starStarArgs.map fun p => "**" ++ p.text).toList
  ", ".intercalate (parts ++ last)

/-- The typing names that the text of a signature uses. -/
def Signature.imports (signature : Signature) : List String :=
  signature.parameters.flatMap Parameter.imports ++
    signature.starArgs.toList.flatMap Parameter.imports ++
    signature.starStarArgs.toList.flatMap Parameter.imports ++ signature.returnType.imports

/-! ## Declarations -/

/-- The line of a constant. -/
def Constant.text (indent : String) (constant : Constant) : String :=
  indent ++ constant.name ++ ": " ++ constant.type.text ++ "\n"

/-- Whether a function has several signatures, each of which is then marked as an overload. -/
def Function.overloaded (function : Function) : Bool := 1 < function.signatures.length

/-- The lines of a function, one per signature. -/
def Function.text (indent : String) (function : Function) : String :=
  let mark := if function.overloaded then indent ++ "@overload\n" else ""
  String.join (function.signatures.map fun signature =>
    mark ++ indent ++ "def " ++ function.name ++ "(" ++ signature.parameterText ++ ") -> " ++
      signature.returnType.text ++ ": ...\n")

/-- The typing names that the lines of a function use. -/
def Function.imports (function : Function) : List String :=
  (if function.overloaded then ["overload"] else []) ++
    function.signatures.flatMap Signature.imports

/-- The bases that a class header shows: `object` is left out. -/
def shownBases (bases : List TypeExpr) : List TypeExpr :=
  bases.filter (· ≠ .builtin "object")

/-- The first line of a class without its colon. -/
def classHeader (indent name : String) (bases : List TypeExpr)
    (keywords : List (String × TypeExpr)) : String :=
  let parts := (shownBases bases).map TypeExpr.text ++
    keywords.map fun (key, value) => key ++ "=" ++ value.text
  indent ++ "class " ++ name ++
    (if parts.isEmpty then "" else "(" ++ ", ".intercalate parts ++ ")")

mutual
/-- The lines of a class. -/
def Class.text (indent : String) : Class → String
  | .mk name bases keywords constants methods classes =>
    let header := classHeader indent name bases keywords
    if constants.isEmpty && methods.isEmpty && classes.isEmpty then header ++ ": ...\n"
    else
      let inner := indent ++ "    "
      header ++ ":\n" ++ String.join (constants.map (Constant.text inner)) ++
        String.join (methods.map (Function.text inner)) ++ String.join (Class.texts inner classes)

/-- The lines of several classes. -/
def Class.texts (indent : String) : List Class → List String
  | [] => []
  | cls :: rest => cls.text indent :: texts indent rest
end

mutual
/-- The typing names that the lines of a class use. -/
def Class.imports : Class → List String
  | .mk _ bases keywords constants methods classes =>
    (shownBases bases).flatMap TypeExpr.imports ++
      keywords.flatMap (fun entry => entry.2.imports) ++
      constants.flatMap (fun constant => constant.type.imports) ++
      methods.flatMap Function.imports ++ Class.importsOf classes

/-- The typing names that the lines of several classes use. -/
def Class.importsOf : List Class → List String
  | [] => []
  | cls :: rest => cls.imports ++ importsOf rest
end

/-! ## Modules -/

/-- The declarations of a module in sections divided by empty lines: all constants, all functions,
then each class. -/
def Module.body (unit : Module) : String :=
  let constants := if unit.constants.isEmpty then []
    else [String.join (unit.constants.map (Constant.text ""))]
  let functions := if unit.functions.isEmpty then []
    else [String.join (unit.functions.map (Function.text ""))]
  "\n".intercalate (constants ++ functions ++ Class.texts "" unit.classes)

/-- The typing names that the declarations of a module use, in order of occurrence. -/
def Module.imports (unit : Module) : List String :=
  unit.constants.flatMap (fun constant => constant.type.imports) ++
    unit.functions.flatMap Function.imports ++ Class.importsOf unit.classes

/-- The names sorted and without repetitions. -/
def sortedNames (names : List String) : List String :=
  (names.mergeSort fun a b => decide (a ≤ b)).eraseDups

/-- The text of a module: the import line if a typing name is used, an empty line if declarations
follow, and the declarations. -/
def Module.text (unit : Module) : String :=
  let names := sortedNames unit.imports
  let header := if names.isEmpty then ""
    else "from typing import " ++ ", ".intercalate names ++ "\n" ++
      (if unit.body.isEmpty then "" else "\n")
  header ++ unit.body

end StubInference.Stub
