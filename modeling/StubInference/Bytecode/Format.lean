import StubInference.Bytecode.Code
import StubInference.Json.Reader
import StubInference.Json.Record
import StubInference.Json.Writer
import StubInference.Power

/-!
# The written form of code objects

Code objects are exchanged as data trees: records with a member per field and variants for
instructions and constants. Reading checks the range of every number and limits how deep arrays and
objects are nested.

## Main definitions

* `Code.toJson`, `Code.ofJson?` — between code objects and trees
* `Opcode.toJson`, `Opcode.ofJson?`, `ConstValue.toJson`, `ConstValue.ofJson?` — their parts
* `Code.read` — read a text for a given version, with `ReadError` as the reasons to refuse one
-/

namespace StubInference

/-- How many arrays and objects may be open at once in the text of a code object. -/
def nestingLimit : Nat := 127

/-! ## Instructions -/

namespace Opcode

/-- The tree of an instruction. -/
def toJson (op : Opcode) : Json :=
  let withData (data : Json) : Json := .object [(op.name, data)]
  match op.operand with
  | .none => .text op.name
  | .count n => withData (.ofNat n)
  | .name s => withData (.text s)
  | .flags f => withData (.ofNat f.toNat)
  | .invert b => withData (.bool b)
  | .global s push => withData (.object [("name", .text s), ("push_null", .bool push)])

/-- The instruction of a given shape with the data read from a tree. `depth` more arrays and
objects may be opened in the data. -/
def Shape.fill? (depth : Nat) : Shape → Option Json → Option Opcode
  | .none op, Option.none => some op
  | .none op, some .null => some op
  | .count make, some data => (data.asNat? (twoTo 64)).map make
  | .name make, some data => data.asText?.map make
  | .flags make, some data => (data.asNat? 256).map fun n => make (UInt8.ofNat n)
  | .invert make, some data => data.asBool?.map make
  | .global make, some data => do
    guard (0 < depth)
    let fields ← data.fields? ["name", "push_null"]
    let name ← Json.required? fields "name" Json.asText?
    let push ← Json.optional? fields "push_null" false Json.asBool?
    pure (make name push)
  | _, _ => Option.none

/-- Read an instruction in which at most `depth` arrays and objects are open at once. -/
def ofJson? (depth : Nat) (tree : Json) : Option Opcode := do
  let (name, data) ← tree.variant?
  if data.isSome then guard (0 < depth)
  let shape ← shape? name
  shape.fill? (depth - 1) data

end Opcode

namespace Instruction

/-- The tree of an instruction with its line. -/
def toJson (instruction : Instruction) : Json :=
  .object [("opcode", instruction.opcode.toJson), ("line", .ofNat instruction.line)]

/-- Read an instruction with its line, zero where none is given. -/
def ofJson? (depth : Nat) (tree : Json) : Option Instruction := do
  guard (0 < depth)
  let fields ← tree.fields? ["opcode", "line"]
  let opcode ← Json.required? fields "opcode" (Opcode.ofJson? (depth - 1))
  let line ← Json.optional? fields "line" 0 (Json.asNat? (twoTo 32))
  pure ⟨opcode, line⟩

end Instruction

/-- Read the instructions of a block. -/
def readBlock? (depth : Nat) (tree : Json) : Option Block :=
  if 0 < depth then tree.asList? (Instruction.ofJson? (depth - 1)) else none

/-- Read the blocks of a code object. -/
def readBlocks? (depth : Nat) (tree : Json) : Option (List Block) :=
  if 0 < depth then tree.asList? (readBlock? (depth - 1)) else none

/-! ## Constants and code objects -/

/-- The tree of a code object whose constants are trees already. -/
def CodeOver.treeWith (code : CodeOver ConstValue) (consts : List Json) : Json :=
  .object [
    ("name", .text code.name),
    ("qualname", .text code.qualName),
    ("filename", .text code.fileName),
    ("first_line", .ofNat code.firstLine),
    ("python_version", .ofOption (fun version => .text version.text) code.version),
    ("argcount", .ofNat code.argCount),
    ("posonlyargcount", .ofNat code.posOnlyArgCount),
    ("kwonlyargcount", .ofNat code.kwOnlyArgCount),
    ("varargs", .bool code.varArgs),
    ("varkeywords", .bool code.varKeywords),
    ("varnames", .ofTexts code.varNames),
    ("consts", .array consts),
    ("blocks", .array (code.blocks.map fun block => .array (block.map Instruction.toJson)))]

namespace ConstValue

mutual
/-- The tree of a constant. -/
def toJson : ConstValue → Json
  | .none => .text "None"
  | .bool value => .object [("Bool", .bool value)]
  | .int value => .object [("Int", .ofInt value)]
  | .float bits => .object [("Float", .number (.double bits))]
  | .str value => .object [("Str", .text value)]
  | .bytes value => .object [("Bytes", .array (value.map fun byte => .ofNat byte.toNat))]
  | .ellipsis => .text "Ellipsis"
  | .tuple items => .object [("Tuple", .array (toJsonAll items))]
  | .code ⟨name, qualName, fileName, firstLine, version, argCount, posOnly, kwOnly, varArgs,
      varKeywords, varNames, consts, blocks⟩ =>
    .object [("Code", CodeOver.treeWith ⟨name, qualName, fileName, firstLine, version, argCount,
      posOnly, kwOnly, varArgs, varKeywords, varNames, [], blocks⟩ (toJsonAll consts))]

/-- The trees of several constants. -/
def toJsonAll : List ConstValue → List Json
  | [] => []
  | value :: rest => toJson value :: toJsonAll rest
end

/-- Read a constant that holds no other constants from the name of its variant and its data. -/
def leaf? (depth : Nat) : String → Json → Option ConstValue
  | "Bool", data => data.asBool?.map .bool
  | "Int", data => data.asInt?.bind fun value =>
    if -twoTo 63 ≤ value ∧ value < twoTo 63 then some (.int value) else Option.none
  | "Float", .number (.double bits) => some (.float bits)
  | "Float", .number (.integer value) => some (.float (Float.ofInt value).toBits)
  | "Str", data => data.asText?.map .str
  | "Bytes", data =>
    if 0 < depth then
      (data.asList? (Json.asNat? 256)).map fun bytes => .bytes (bytes.map UInt8.ofNat)
    else Option.none
  | "None", .null => some .none
  | "Ellipsis", .null => some .ellipsis
  | _, _ => Option.none

end ConstValue

/-- Read a version. -/
def Version.ofJson? (tree : Json) : Option Version :=
  tree.asText?.bind fun source => (Version.parse source).toOption

namespace Code

/-- The member names of the record of a code object, in order. -/
def fieldNames : List String :=
  ["name", "qualname", "filename", "first_line", "python_version", "argcount", "posonlyargcount",
    "kwonlyargcount", "varargs", "varkeywords", "varnames", "consts", "blocks"]

/-- Read a code object from the tree of its record, given how to read its constants. At most
`depth` arrays and objects may be open at once inside the record. -/
def ofRecord? (depth : Nat) (readConst : Json → Option ConstValue) (tree : Json) : Option Code := do
  let fields ← tree.fields? fieldNames
  let count := Json.asNat? (twoTo 64)
  let name ← Json.required? fields "name" Json.asText?
  let qualName ← Json.optional? fields "qualname" "" Json.asText?
  let fileName ← Json.optional? fields "filename" "" Json.asText?
  let firstLine ← Json.optional? fields "first_line" 0 (Json.asNat? (twoTo 32))
  let version ← Json.optional? fields "python_version" none (Json.asOptional? Version.ofJson?)
  let argCount ← Json.optional? fields "argcount" 0 count
  let posOnlyArgCount ← Json.optional? fields "posonlyargcount" 0 count
  let kwOnlyArgCount ← Json.optional? fields "kwonlyargcount" 0 count
  let varArgs ← Json.optional? fields "varargs" false Json.asBool?
  let varKeywords ← Json.optional? fields "varkeywords" false Json.asBool?
  let varNames ← Json.optional? fields "varnames" [] fun names =>
    if 0 < depth then names.asTexts? else none
  let consts ← Json.optional? fields "consts" [] fun items =>
    if 0 < depth then items.asList? readConst else none
  let blocks ← Json.required? fields "blocks" (readBlocks? depth)
  pure { name, qualName, fileName, firstLine, version, argCount, posOnlyArgCount, kwOnlyArgCount,
         varArgs, varKeywords, varNames, consts, blocks }

end Code

/-- Read a constant in which at most `depth` arrays and objects are open at once. -/
def ConstValue.ofJson? : (depth : Nat) → Json → Option ConstValue
  | _, .text "None" => some .none
  | _, .text "Ellipsis" => some .ellipsis
  | depth + 2, .object [("Tuple", .array items)] => (items.mapM (ofJson? depth)).map .tuple
  | depth + 2, .object [("Code", body)] =>
    (Code.ofRecord? depth (match depth with
      | 0 => fun _ => Option.none
      | inner + 1 => ofJson? inner) body).map .code
  | depth + 1, .object [(name, data)] => leaf? depth name data
  | _, _ => Option.none

namespace Code

/-- The tree of a code object. -/
def toJson (code : Code) : Json := code.treeWith (ConstValue.toJsonAll code.consts)

/-- Read a code object. -/
def ofJson? (tree : Json) : Option Code :=
  ofRecord? (nestingLimit - 1) (ConstValue.ofJson? (nestingLimit - 2)) tree

/-- Why a text is refused: it does not write a code object, or it was compiled for another
version. -/
inductive ReadError where
  | malformed
  | versionMismatch (expected found : Version)
  deriving DecidableEq

/-- Read a code object compiled for a given version. One that names no file gets the given file
name. -/
def read (source : String) (version : Version) (fileName : Option String) :
    Except ReadError Code := do
  let code ← match (Json.parse? source).bind ofJson? with
    | some code => pure code
    | none => throw .malformed
  match code.version with
  | some found => if found ≠ version then throw (.versionMismatch version found)
  | none => pure ()
  match fileName with
  | some fileName => pure (if code.fileName.isEmpty then { code with fileName } else code)
  | none => pure code

end Code

end StubInference
