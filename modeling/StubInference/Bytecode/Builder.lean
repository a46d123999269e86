import StubInference.Bytecode.Code
import StubInference.Decimal.Shortest

/-!
# Assembling code objects

A builder collects parameters, constants and instructions step by step. Constants are pooled: one
that is in the pool already is used again. Parameters may be named in any order, since their layout
is only fixed when the code object is built.

## Main definitions

* `CodeBuilder` — a code object under construction
* `CodeBuilder.addConst` — the pool position of a constant
* `CodeBuilder.build` — the finished code object
* `CodeBuilder.classBody` — the start of a class body
-/

namespace StubInference

/-- Whether two doubles are the same number: no number equals itself when it is none, and the two
zeros are equal. -/
def sameNumber (a b : UInt64) : Bool :=
  match Decimal.Double.ofBits a, Decimal.Double.ofBits b with
  | .notANumber, _ => false
  | .finite _ 0 _, .finite _ 0 _ => true
  | _, _ => a == b

/-- A code object under construction: its names and parameters, the constants pooled so far, the
blocks that are closed and the instructions of the open one. -/
structure CodeBuilder where
  name : String
  qualName : String
  fileName : String
  positional : List String
  posOnlyCount : Nat
  kwOnly : List String
  varArgs : Option String
  varKeywords : Option String
  consts : List ConstValue
  blocks : List Block
  current : Block
  line : Nat

namespace CodeBuilder

/-- A builder for code of that name. -/
def new (name : String) : CodeBuilder where
  name
  qualName := name
  fileName := "<test>"
  positional := []
  posOnlyCount := 0
  kwOnly := []
  varArgs := none
  varKeywords := none
  consts := []
  blocks := []
  current := []
  line := 1

/-- A builder for a module body. -/
def module : CodeBuilder := new "<module>"

/-- Set the qualified name. -/
def withQualName (b : CodeBuilder) (qualName : String) : CodeBuilder := { b with qualName }

/-- Append positional parameters. -/
def addParams (b : CodeBuilder) (names : List String) : CodeBuilder :=
  { b with positional := b.positional ++ names }

/-- Say how many of the positional parameters are positional-only. -/
def withPosOnly (b : CodeBuilder) (count : Nat) : CodeBuilder := { b with posOnlyCount := count }

/-- Append keyword-only parameters. -/
def addKwOnly (b : CodeBuilder) (names : List String) : CodeBuilder :=
  { b with kwOnly := b.kwOnly ++ names }

/-- Name the parameter that takes the remaining positional arguments. -/
def withVarArgs (b : CodeBuilder) (name : String) : CodeBuilder := { b with varArgs := some name }

/-- Name the parameter that takes the remaining keyword arguments. -/
def withVarKeywords (b : CodeBuilder) (name : String) : CodeBuilder :=
  { b with varKeywords := some name }

/-- Set the line of the instructions that follow. -/
def atLine (b : CodeBuilder) (line : Nat) : CodeBuilder := { b with line }

/-- Append an instruction. -/
def op (b : CodeBuilder) (opcode : Opcode) : CodeBuilder :=
  { b with current := b.current ++ [⟨opcode, b.line⟩] }

/-- Put a constant into the pool, unless an equal one is there, and give its position. -/
def addConst (b : CodeBuilder) (value : ConstValue) : CodeBuilder × Nat :=
  match b.consts.findIdx? fun known => known.agree sameNumber value with
  | some index => (b, index)
  | none => ({ b with consts := b.consts ++ [value] }, b.consts.length)

/-- Load a constant. -/
def loadConst (b : CodeBuilder) (value : ConstValue) : CodeBuilder :=
  let (b, index) := b.addConst value
  b.op (.loadConst index)

/-- Name the keyword arguments of the next call. -/
def kwNames (b : CodeBuilder) (names : List String) : CodeBuilder :=
  let (b, index) := b.addConst (.tuple (names.map .str))
  b.op (.kwNames index)

/-- Close the open block. -/
def newBlock (b : CodeBuilder) : CodeBuilder :=
  { b with blocks := b.blocks ++ [b.current], current := [] }

/-- The number that the block behind the open one will have. -/
def nextBlockIndex (b : CodeBuilder) : Nat := b.blocks.length + 1

/-- Create a function and store it under a name. -/
def defFunction (b : CodeBuilder) (code : Code) (name : String) : CodeBuilder :=
  ((b.loadConst (.code code)).op (.makeFunction 0)).op (.storeName name)

/-- Build a class with bases given by name and store it under a name. -/
def defClass (b : CodeBuilder) (body : Code) (name : String) (bases : List String) : CodeBuilder :=
  let start := (((b.op .pushNull).op .loadBuildClass).loadConst (.code body)).op (.makeFunction 0)
  let operands := bases.foldl (fun b base => b.op (.loadName base)) (start.loadConst (.str name))
  (operands.op (.call (2 + bases.length))).op (.storeName name)

/-- Return `None`. -/
def returnNone (b : CodeBuilder) : CodeBuilder := (b.loadConst .none).op .returnValue

/-- The finished code object. The open block is closed when it has instructions or is the only
one. -/
def build (b : CodeBuilder) : Code :=
  -- an open block without instructions is dropped behind others
  let closed := if b.current.isEmpty && !b.blocks.isEmpty then b else b.newBlock
  { name := b.name
    qualName := b.qualName
    fileName := b.fileName
    firstLine := 1
    version := none
    argCount := b.positional.length
    posOnlyArgCount := min b.posOnlyCount b.positional.length
    kwOnlyArgCount := b.kwOnly.length
    varArgs := b.varArgs.isSome
    varKeywords := b.varKeywords.isSome
    varNames := b.positional ++ b.kwOnly ++ b.varArgs.toList ++ b.varKeywords.toList
    consts := b.consts
    blocks := closed.blocks }

/-- The start of a class body: it records the module and the qualified name. -/
def classBody (name : String) : CodeBuilder :=
  (((new name).op (.loadName "__name__")).op (.storeName "__module__")).loadConst (.str name)
    |>.op (.storeName "__qualname__")

end CodeBuilder

end StubInference
