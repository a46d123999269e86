/-!
# Instructions

The instruction set that code objects are made of. Jump targets are block numbers, constant
operands are positions in the constant pool, and depths count stack entries from the top, the top
being one.

## Main definitions

* `Opcode` — an instruction with its operand
* `Opcode.Operand`, `Opcode.name`, `Opcode.operand` — an instruction as a name and an operand
* `Opcode.jumpTarget?` — the block an instruction may jump to
-/

namespace StubInference

/-- An instruction with its operand. -/
inductive Opcode where
  | nop
  | resume
  | precall
  | cache
  | pushNull
  | popTop
  | copy (depth : Nat)
  | swap (depth : Nat)
  | loadConst (index : Nat)
  | loadName (name : String)
  | storeName (name : String)
  | deleteName (name : String)
  | loadGlobal (name : String) (pushNull : Bool)
  | storeGlobal (name : String)
  | loadFast (name : String)
  | storeFast (name : String)
  | deleteFast (name : String)
  | makeCell (name : String)
  | loadClosure (name : String)
  | loadDeref (name : String)
  | storeDeref (name : String)
  | copyFreeVars (count : Nat)
  | loadAttr (name : String)
  | storeAttr (name : String)
  | loadMethod (name : String)
  | loadBuildClass
  | buildTuple (count : Nat)
  | buildList (count : Nat)
  | buildMap (count : Nat)
  | buildConstKeyMap (count : Nat)
  | listAppend (depth : Nat)
  | listExtend (depth : Nat)
  | listToTuple
  | dictMerge (depth : Nat)
  | dictUpdate (depth : Nat)
  | makeFunction (flags : UInt8)
  | kwNames (index : Nat)
  | call (count : Nat)
  | callFunctionEx (flags : UInt8)
  | returnValue
  | binaryOp (symbol : String)
  | compareOp (symbol : String)
  | isOp (invert : Bool)
  | containsOp (invert : Bool)
  | unaryNot
  | unaryNegative
  | getIter
  | forIter (target : Nat)
  | jumpForward (target : Nat)
  | jumpBackward (target : Nat)
  | popJumpIfFalse (target : Nat)
  | popJumpIfTrue (target : Nat)
  | popJumpIfNone (target : Nat)
  | popJumpIfNotNone (target : Nat)
  | raiseVarargs (count : Nat)
  | importName (name : String)
  | importFrom (name : String)
  deriving DecidableEq

namespace Opcode

/-- The operand of an instruction. -/
inductive Operand where
  | none
  | count (value : Nat)
  | name (value : String)
  | flags (value : UInt8)
  | invert (value : Bool)
  | global (name : String) (pushNull : Bool)
  deriving DecidableEq

/-- The name of an instruction. -/
def name : Opcode → String
  | nop => "NOP"
  | resume => "RESUME"
  | precall => "PRECALL"
  | cache => "CACHE"
  | pushNull => "PUSH_NULL"
  | popTop => "POP_TOP"
  | copy _ => "COPY"
  | swap _ => "SWAP"
  | loadConst _ => "LOAD_CONST"
  | loadName _ => "LOAD_NAME"
  | storeName _ => "STORE_NAME"
  | deleteName _ => "DELETE_NAME"
  | loadGlobal _ _ => "LOAD_GLOBAL"
  | storeGlobal _ => "STORE_GLOBAL"
  | loadFast _ => "LOAD_FAST"
  | storeFast _ => "STORE_FAST"
  | deleteFast _ => "DELETE_FAST"
  | makeCell _ => "MAKE_CELL"
  | loadClosure _ => "LOAD_CLOSURE"
  | loadDeref _ => "LOAD_DEREF"
  | storeDeref _ => "STORE_DEREF"
  | copyFreeVars _ => "COPY_FREE_VARS"
  | loadAttr _ => "LOAD_ATTR"
  | storeAttr _ => "STORE_ATTR"
  | loadMethod _ => "LOAD_METHOD"
  | loadBuildClass => "LOAD_BUILD_CLASS"
  | buildTuple _ => "BUILD_TUPLE"
  | buildList _ => "BUILD_LIST"
  | buildMap _ => "BUILD_MAP"
  | buildConstKeyMap _ => "BUILD_CONST_KEY_MAP"
  | listAppend _ => "LIST_APPEND"
  | listExtend _ => "LIST_EXTEND"
  | listToTuple => "LIST_TO_TUPLE"
  | dictMerge _ => "DICT_MERGE"
  | dictUpdate _ => "DICT_UPDATE"
  | makeFunction _ => "MAKE_FUNCTION"
  | kwNames _ => "KW_NAMES"
  | call _ => "CALL"
  | callFunctionEx _ => "CALL_FUNCTION_EX"
  | returnValue => "RETURN_VALUE"
  | binaryOp _ => "BINARY_OP"
  | compareOp _ => "COMPARE_OP"
  | isOp _ => "IS_OP"
  | containsOp _ => "CONTAINS_OP"
  | unaryNot => "UNARY_NOT"
  | unaryNegative => "UNARY_NEGATIVE"
  | getIter => "GET_ITER"
  | forIter _ => "FOR_ITER"
  | jumpForward _ => "JUMP_FORWARD"
  | jumpBackward _ => "JUMP_BACKWARD"
  | popJumpIfFalse _ => "POP_JUMP_IF_FALSE"
  | popJumpIfTrue _ => "POP_JUMP_IF_TRUE"
  | popJumpIfNone _ => "POP_JUMP_IF_NONE"
  | popJumpIfNotNone _ => "POP_JUMP_IF_NOT_NONE"
  | raiseVarargs _ => "RAISE_VARARGS"
  | importName _ => "IMPORT_NAME"
  | importFrom _ => "IMPORT_FROM"

/-- The operand of an instruction. -/
def operand : Opcode → Operand
  | nop | resume | precall | cache | pushNull | popTop | loadBuildClass | listToTuple
  | returnValue | unaryNot | unaryNegative | getIter => .none
  | copy n | swap n | loadConst n | copyFreeVars n | buildTuple n | buildList n | buildMap n
  | buildConstKeyMap n | listAppend n | listExtend n | dictMerge n | dictUpdate n | kwNames n
  | call n | forIter n | jumpForward n | jumpBackward n | popJumpIfFalse n | popJumpIfTrue n
  | popJumpIfNone n | popJumpIfNotNone n | raiseVarargs n => .count n
  | loadName s | storeName s | deleteName s | storeGlobal s | loadFast s | storeFast s
  | deleteFast s | makeCell s | loadClosure s | loadDeref s | storeDeref s | loadAttr s
  | storeAttr s | loadMethod s | binaryOp s | compareOp s | importName s | importFrom s => .name s
  | makeFunction f | callFunctionEx f => .flags f
  | isOp b | containsOp b => .invert b
  | loadGlobal s withNull => .global s withNull

/-- The kind of operand that an instruction of a given name takes, with the instruction that each
such operand makes. -/
inductive Shape where
  | none (op : Opcode)
  | count (make : Nat → Opcode)
  | name (make : String → Opcode)
  | flags (make : UInt8 → Opcode)
  | invert (make : Bool → Opcode)
  | global (make : String → Bool → Opcode)

/-- The shape of the instruction of that name. -/
def shape? : String → Option Shape
  | "NOP" => some (.none nop)
  | "RESUME" => some (.none resume)
  | "PRECALL" => some (.none precall)
  | "CACHE" => some (.none cache)
  | "PUSH_NULL" => some (.none pushNull)
  | "POP_TOP" => some (.none popTop)
  | "COPY" => some (.count copy)
  | "SWAP" => some (.count swap)
  | "LOAD_CONST" => some (.count loadConst)
  | "LOAD_NAME" => some (.name loadName)
  | "STORE_NAME" => some (.name storeName)
  | "DELETE_NAME" => some (.name deleteName)
  | "LOAD_GLOBAL" => some (.global loadGlobal)
  | "STORE_GLOBAL" => some (.name storeGlobal)
  | "LOAD_FAST" => some (.name loadFast)
  | "STORE_FAST" => some (.name storeFast)
  | "DELETE_FAST" => some (.name deleteFast)
  | "MAKE_CELL" => some (.name makeCell)
  | "LOAD_CLOSURE" => some (.name loadClosure)
  | "LOAD_DEREF" => some (.name loadDeref)
  | "STORE_DEREF" => some (.name storeDeref)
  | "COPY_FREE_VARS" => some (.count copyFreeVars)
  | "LOAD_ATTR" => some (.name loadAttr)
  | "STORE_ATTR" => some (.name storeAttr)
  | "LOAD_METHOD" => some (.name loadMethod)
  | "LOAD_BUILD_CLASS" => some (.none loadBuildClass)
  | "BUILD_TUPLE" => some (.count buildTuple)
  | "BUILD_LIST" => some (.count buildList)
  | "BUILD_MAP" => some (.count buildMap)
  | "BUILD_CONST_KEY_MAP" => some (.count buildConstKeyMap)
  | "LIST_APPEND" => some (.count listAppend)
  | "LIST_EXTEND" => some (.count listExtend)
  | "LIST_TO_TUPLE" => some (.none listToTuple)
  | "DICT_MERGE" => some (.count dictMerge)
  | "DICT_UPDATE" => some (.count dictUpdate)
  | "MAKE_FUNCTION" => some (.flags makeFunction)
  | "KW_NAMES" => some (.count kwNames)
  | "CALL" => some (.count call)
  | "CALL_FUNCTION_EX" => some (.flags callFunctionEx)
  | "RETURN_VALUE" => some (.none returnValue)
  | "BINARY_OP" => some (.name binaryOp)
  | "COMPARE_OP" => some (.name compareOp)
  | "IS_OP" => some (.invert isOp)
  | "CONTAINS_OP" => some (.invert containsOp)
  | "UNARY_NOT" => some (.none unaryNot)
  | "UNARY_NEGATIVE" => some (.none unaryNegative)
  | "GET_ITER" => some (.none getIter)
  | "FOR_ITER" => some (.count forIter)
  | "JUMP_FORWARD" => some (.count jumpForward)
  | "JUMP_BACKWARD" => some (.count jumpBackward)
  | "POP_JUMP_IF_FALSE" => some (.count popJumpIfFalse)
  | "POP_JUMP_IF_TRUE" => some (.count popJumpIfTrue)
  | "POP_JUMP_IF_NONE" => some (.count popJumpIfNone)
  | "POP_JUMP_IF_NOT_NONE" => some (.count popJumpIfNotNone)
  | "RAISE_VARARGS" => some (.count raiseVarargs)
  | "IMPORT_NAME" => some (.name importName)
  | "IMPORT_FROM" => some (.name importFrom)
  | _ => Option.none

/-- The block that an instruction may jump to. -/
def jumpTarget? : Opcode → Option Nat
  | forIter target | jumpForward target | jumpBackward target | popJumpIfFalse target
  | popJumpIfTrue target | popJumpIfNone target | popJumpIfNotNone target => some target
  | _ => Option.none

end Opcode

end StubInference
