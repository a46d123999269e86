import StubInference.Bytecode.Format
import StubInference.Context

/-!
# Reports on an analysis

What an analysis has found, as data trees that other programs can read: values with the objects
they name, frames, classes, signatures and findings. Objects are shown by their position in the
heap and their full name.

## Main definitions

* `Report.value`, `Report.var`, `Report.names` — values, variables and tables of names
* `Report.frame`, `Report.classInfo`, `Report.functionInfo` — objects
* `Report.finding` — findings
* `Report.code` — an outline of a code object
-/

namespace StubInference.Report

/-- A value that may be missing. -/
def text? (text : Option String) : Json := .ofOption .text text

/-! ## Values -/

/-- A class by position and full name. -/
def classRef (heap : Heap) (cls : ClassId) : Json :=
  .array [.ofNat cls.index, .text (heap.classAt cls).fullName]

/-- A function by position and full name. -/
def functionRef (heap : Heap) (id : FunctionId) : Json :=
  .array [.ofNat id.index, .text (heap.functionAt id).fullName]

/-- Where a binding was made. -/
def origin : Origin → Json
  | .synthetic => .null
  | .line number => .ofNat number

mutual
/-- A value. -/
def value (heap : Heap) : Value → Json
  | .any => .text "Any"
  | .null => .text "Null"
  | .literal literal => .object [("const", .text literal.text)]
  | .union members => .object [("union", .array (values heap members))]
  | .classObject cls => .object [("class", classRef heap cls)]
  | .function id => .object [("function", functionRef heap id)]
  | .bound receiver id =>
    .object [("bound", .array [value heap receiver, functionRef heap id])]
  | .instanceObject id => .object
    [("instance", .array [.ofNat id.index, classRef heap (heap.instanceAt id).cls])]
  | .frozen cls => .object [("frozen", classRef heap cls)]
  | .tuple elements => .object [("tuple", contents heap elements)]
  | .list elements => .object [("list", contents heap elements)]
  | .argTuple elements => .object [("argtuple", contents heap elements)]
  | .dict none => .object [("dict", .null)]
  | .dict (some entries) => .object [("dict", .array (pairs heap entries))]
  | .argDict none => .object [("argdict", .null)]
  | .argDict (some entries) => .object [("argdict", .array (entriesOf heap entries))]

/-- Several values. -/
def values (heap : Heap) : List Value → List Json
  | [] => []
  | v :: rest => value heap v :: values heap rest

/-- The elements of a sequence, where they are known. -/
def contents (heap : Heap) : Option (List Variable) → Json
  | none => .null
  | some elements => .array (vars heap elements)

/-- A variable as the list of its bindings. -/
def var (heap : Heap) : Variable → Json
  | .ofBindings bindings => .array (bindingsOf heap bindings)

/-- Bindings. -/
def bindingsOf (heap : Heap) : List (Binding Value) → List Json
  | [] => []
  | ⟨v, place⟩ :: rest => .array [value heap v, origin place] :: bindingsOf heap rest

/-- Several variables. -/
def vars (heap : Heap) : List Variable → List Json
  | [] => []
  | v :: rest => var heap v :: vars heap rest

/-- The entries of a dictionary. -/
def pairs (heap : Heap) : List (Variable × Variable) → List Json
  | [] => []
  | (key, v) :: rest => .array [var heap key, var heap v] :: pairs heap rest

/-- Names with their variables. -/
def entriesOf (heap : Heap) : List (String × Variable) → List Json
  | [] => []
  | (name, v) :: rest => .array [.text name, var heap v] :: entriesOf heap rest
end

/-- A table of names. -/
def names (heap : Heap) (map : NameMap Variable) : Json := .array (entriesOf heap map)

/-- A table of members. -/
def members (heap : Heap) (map : NameMap Value) : Json :=
  .array (map.map fun (name, v) => .array [.text name, value heap v])

/-- A value with everything that can be asked of it. -/
def inspected (heap : Heap) (v : Value) : Json :=
  .object [
    ("kind", .text v.kind.name),
    ("type_name", .text v.typeName),
    ("repr", .text (v.describe heap)),
    ("full_name", text? (v.fullName? heap)),
    ("any", .bool (v.kind = .any)),
    ("null", .bool (v.kind = .null)),
    ("is_class", .bool v.asClass?.isSome),
    ("is_function", .bool v.asFunction?.isSome),
    ("is_constant", .bool (v.kind = .constant)),
    ("class_of", .ofOption (classRef heap) (heap.classOf? v))]

/-! ## Objects -/

/-- A frame. -/
def frame (heap : Heap) (frame : Frame) : Json :=
  let kind := match frame.kind with
    | .module => "Module"
    | .function => "Function"
  .object [
    ("name", .text frame.name),
    ("kind", .text kind),
    ("code", .text frame.code.qualifiedName),
    ("function", .ofOption (fun id => .ofNat id.index) frame.function),
    ("initial", names heap frame.initialLocals),
    ("final", names heap frame.finalLocals),
    ("functions", .array (frame.functions.map (functionRef heap))),
    ("classes", .array (frame.classes.map (classRef heap))),
    ("returns", .ofOption (var heap) frame.returned?),
    ("finished", .bool frame.finished)]

/-- A class. -/
def classInfo (heap : Heap) (cls : ClassId) : Json :=
  let info := heap.classAt cls
  .object [
    ("id", .ofNat cls.index),
    ("name", .text info.name),
    ("full_name", .text info.fullName),
    ("module", text? info.module),
    ("kind", .text (if info.isBuilt then "interpreter" else "simple")),
    ("bases", .array (info.bases.map (classRef heap))),
    ("mro", .array ((heap.mro cls).map (classRef heap))),
    ("members", members heap info.members),
    ("metaclass", .ofOption (classRef heap) info.metaclass),
    ("keywords", .ofOption (members heap) (info.body.map ClassBody.keywords)),
    ("functions", .array (info.functions.map (functionRef heap))),
    ("classes", .array (info.classes.map (classRef heap)))]

/-- A signature. -/
def signature (heap : Heap) (sig : Signature) : Json :=
  .object [
    ("name", .text sig.name),
    ("params", .ofTexts sig.params),
    ("posonly", .ofNat sig.posOnlyCount),
    ("kwonly", .ofTexts sig.kwOnly),
    ("varargs", text? sig.varArgs),
    ("kwargs", text? sig.varKeywords),
    ("defaults", names heap sig.defaults),
    ("named", .ofTexts sig.namedParams)]

/-- The word for special behaviour. -/
def specialWord : Special → String
  | .buildClass => "BuildClass"
  | .typeNew => "TypeNew"
  | .assertType | .revealType => "Overlay"

/-- A function. -/
def functionInfo (heap : Heap) (id : FunctionId) : Json :=
  let info := heap.functionAt id
  .object [
    ("name", .text info.name),
    ("full_name", .text info.fullName),
    ("interpreter", .bool info.isInterpreted),
    ("special", text? (info.special?.map specialWord)),
    ("default_hook", .bool info.isDefaultHook),
    ("signature", signature heap info.signature)]

/-- A declared function. -/
def declaredFunction (heap : Heap) (function : DeclaredFunction) : Json :=
  .object [("module", .text function.module), ("name", .text function.name),
    ("params", .ofTexts function.signature.params), ("returns", value heap function.returns)]

/-- The arguments of a call. -/
def args (heap : Heap) (args : Args) : Json :=
  .object [
    ("pos", .array (vars heap args.positional)),
    ("kw", names heap args.keywords),
    ("star", .ofOption (var heap) args.star),
    ("starstar", .ofOption (var heap) args.starStar),
    ("frame", text? (args.frame.map Surroundings.name))]

/-- A block state, the lowest entry of the stack first. -/
def state (heap : Heap) (state : BlockState) : Json :=
  .object [("locals", names heap state.locals),
    ("stack", .array (vars heap state.stack.reverse))]

/-! ## Findings and counts -/

/-- A finding. -/
def finding (finding : Finding) : Json :=
  .object [("name", .text finding.kind.name), ("message", .text finding.kind.message),
    ("code", .text finding.position.code), ("line", .ofNat finding.position.line)]

/-- Findings in order. -/
def findings (log : Log) : Json := .array (log.map finding)

/-- How many classes, functions and finished frames there are, and how deep calls are nested. -/
def counts (context : Context) : Json :=
  let heap := context.heap
  .array ([heap.classes.size, heap.functions.size, heap.frames.size,
    context.callStack.length].map Json.ofNat)

/-! ## Code objects -/

/-- The blocks of a code object with names, jump targets and lines of their instructions. -/
def blocks (blocks : List Block) : Json :=
  let instruction (i : Instruction) : Json :=
    .array [.text i.opcode.name, .ofOption .ofNat i.opcode.jumpTarget?, .ofNat i.line]
  .array (blocks.map fun block => .array (block.map instruction))

/-- The outline of a code object whose constants have been outlined, where its layout can be read. -/
def outline (code : Code) (consts : List Json) : Except Panic Json := do
  code.checkLayout
  pure <| .object [
    ("name", .text code.name),
    ("qualname", .text code.qualifiedName),
    ("filename", .text code.fileName),
    ("first_line", .ofNat code.firstLine),
    ("python_version", text? (code.version.map Version.text)),
    ("positional", .ofTexts code.positionalParams),
    ("posonly", .ofNat code.posOnlyArgCount),
    ("kwonly", .ofTexts code.kwOnlyParams),
    ("varargs", text? code.varArgsName?),
    ("varkeywords", text? code.varKeywordsName?),
    ("varnames", .ofTexts code.varNames),
    ("instructions", .ofNat code.instructionCount),
    ("consts", .array consts),
    ("blocks", blocks code.blocks)]

mutual
/-- A constant of a pool: the outline of a code object, and the text of anything else. -/
def constant : ConstValue → Except Panic Json
  | .code ⟨name, qualName, fileName, firstLine, version, argCount, posOnly, kwOnly, varArgs,
      varKeywords, varNames, consts, blocks⟩ => do
    outline ⟨name, qualName, fileName, firstLine, version, argCount, posOnly, kwOnly, varArgs,
      varKeywords, varNames, [], blocks⟩ (← constants consts)
  | other => .ok (.text (Literal.ofConst ⟨0, []⟩ other).text)

/-- Constants of a pool. -/
def constants : List ConstValue → Except Panic (List Json)
  | [] => .ok []
  | value :: rest => do pure ((← constant value) :: (← constants rest))
end

/-- The outline of a code object. -/
def code (code : Code) : Except Panic Json := do outline code (← constants code.consts)

end StubInference.Report
