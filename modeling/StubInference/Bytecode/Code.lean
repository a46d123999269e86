import StubInference.Bytecode.Opcode
import StubInference.Bytecode.Word
import StubInference.Version

/-!
# Code objects

A code object holds the instructions of a module, function or class body, cut into straight-line
blocks, together with its constants and the layout of its parameters.

The names of the parameters come first in `varNames`: the positional ones, the keyword-only ones,
then the names of `*args` and `**kwargs` when present. The other locals follow.

## Main definitions

* `Instruction` — an opcode with its line
* `CodeOver` — a code object over a type of constants
* `ConstValue`, `Code` — a constant of the pool, and a code object whose constants these are
* `CodeOver.positionalParams`, `CodeOver.kwOnlyParams`, `CodeOver.varArgsName?`,
  `CodeOver.varKeywordsName?` — the parameters read off the layout
* `CodeOver.checkLayout` — the same in machine words, which the counts may outgrow
-/

namespace StubInference

/-- An opcode with the source line it belongs to. -/
structure Instruction where
  opcode : Opcode
  line : Nat
  deriving DecidableEq

/-- A straight-line run of instructions. Control enters only at its top. -/
abbrev Block := List Instruction

/-- A code object over a type of constants. -/
structure CodeOver (Constant : Type) where
  name : String
  qualName : String
  fileName : String
  firstLine : Nat
  version : Option Version
  argCount : Nat
  posOnlyArgCount : Nat
  kwOnlyArgCount : Nat
  varArgs : Bool
  varKeywords : Bool
  varNames : List String
  consts : List Constant
  blocks : List Block

/-- A constant of a pool. A double is given by its bits, a byte string by its bytes. -/
inductive ConstValue where
  | none
  | bool (value : Bool)
  | int (value : Int)
  | float (bits : UInt64)
  | str (value : String)
  | bytes (value : List UInt8)
  | ellipsis
  | tuple (items : List ConstValue)
  | code (body : CodeOver ConstValue)

/-- A code object. -/
abbrev Code := CodeOver ConstValue

namespace CodeOver

variable {Constant : Type}

/-- The qualified name, or the plain name where there is no qualified one. -/
def qualifiedName (code : CodeOver Constant) : String :=
  if code.qualName.isEmpty then code.name else code.qualName

/-- The names of the positional parameters, the positional-only ones first. -/
def positionalParams (code : CodeOver Constant) : List String := code.varNames.take code.argCount

/-- The names of the keyword-only parameters. -/
def kwOnlyParams (code : CodeOver Constant) : List String :=
  (code.varNames.drop code.argCount).take code.kwOnlyArgCount

/-- The name of the parameter that takes the remaining positional arguments. -/
def varArgsName? (code : CodeOver Constant) : Option String :=
  if code.varArgs then code.varNames[code.argCount + code.kwOnlyArgCount]? else none

/-- The name of the parameter that takes the remaining keyword arguments. -/
def varKeywordsName? (code : CodeOver Constant) : Option String :=
  if code.varKeywords then
    code.varNames[code.argCount + code.kwOnlyArgCount + code.varArgs.toNat]?
  else none

/-! ### In machine words

The counts come from whoever wrote the code object and may be any words, however many names there are.
So the positions that are computed from them are cut down to the names, but not the sums before that. -/

/-- The names of the positional parameters. -/
def positionalSlice (code : CodeOver Constant) : Except Panic (List String) :=
  Panic.slice code.varNames 0 (min code.argCount code.varNames.length)

/-- The names of the keyword-only parameters. -/
def kwOnlySlice (code : CodeOver Constant) : Except Panic (List String) := do
  let start := min code.argCount code.varNames.length
  let stop ← Panic.add code.argCount code.kwOnlyArgCount
  Panic.slice code.varNames start (min stop code.varNames.length)

/-- The name of the parameter that takes the remaining positional arguments. -/
def varArgsEntry (code : CodeOver Constant) : Except Panic (Option String) := do
  if code.varArgs then
    let index ← Panic.add code.argCount code.kwOnlyArgCount
    pure code.varNames[index]?
  else pure none

/-- The name of the parameter that takes the remaining keyword arguments. -/
def varKeywordsEntry (code : CodeOver Constant) : Except Panic (Option String) := do
  if code.varKeywords then
    let named ← Panic.add code.argCount code.kwOnlyArgCount
    let index ← Panic.add named code.varArgs.toNat
    pure code.varNames[index]?
  else pure none

/-- Whether all parameters can be read off the layout. -/
def checkLayout (code : CodeOver Constant) : Except Panic Unit := do
  let _ ← code.positionalSlice
  let _ ← code.kwOnlySlice
  let _ ← code.varArgsEntry
  let _ ← code.varKeywordsEntry

/-- How many instructions a code object has. -/
def instructionCount (code : CodeOver Constant) : Nat :=
  code.blocks.foldl (fun count block => count + block.length) 0

end CodeOver

/-! ## Comparing constants -/

namespace ConstValue

mutual
/-- Whether two constants agree, doubles compared by the given rule. -/
def agree (floats : UInt64 → UInt64 → Bool) : ConstValue → ConstValue → Bool
  | .none, .none => true
  | .bool a, .bool b => a == b
  | .int a, .int b => a == b
  | .float a, .float b => floats a b
  | .str a, .str b => a == b
  | .bytes a, .bytes b => a == b
  | .ellipsis, .ellipsis => true
  | .tuple as, .tuple bs => agreeAll floats as bs
  | .code ⟨name, qualName, fileName, firstLine, version, argCount, posOnly, kwOnly, varArgs,
      varKeywords, varNames, consts, blocks⟩, .code b =>
    name == b.name && qualName == b.qualName && fileName == b.fileName &&
      firstLine == b.firstLine && version == b.version && argCount == b.argCount &&
      posOnly == b.posOnlyArgCount && kwOnly == b.kwOnlyArgCount && varArgs == b.varArgs &&
      varKeywords == b.varKeywords && varNames == b.varNames &&
      agreeAll floats consts b.consts && blocks == b.blocks
  | _, _ => false

/-- Whether two lists of constants agree item by item. -/
def agreeAll (floats : UInt64 → UInt64 → Bool) : List ConstValue → List ConstValue → Bool
  | [], [] => true
  | a :: as, b :: bs => agree floats a b && agreeAll floats as bs
  | _, _ => false
end

mutual
theorem agree_refl (a : ConstValue) : agree (· == ·) a a = true := by
  cases a with
  | tuple items => simp [agree, agreeAll_refl items]
  | code body => cases body with | mk => simp [agree, agreeAll_refl]
  | _ => simp [agree]

theorem agreeAll_refl (as : List ConstValue) : agreeAll (· == ·) as as = true := by
  cases as with
  | nil => simp [agreeAll]
  | cons a as => simp [agreeAll, agree_refl a, agreeAll_refl as]
end

mutual
theorem eq_of_agree {a b : ConstValue} (h : agree (· == ·) a b = true) : a = b := by
  cases a with
  | tuple as =>
    cases b <;> simp_all [agree]
    exact eq_of_agreeAll h
  | code body =>
    cases body with
    | mk _ _ _ _ _ _ _ _ _ _ _ consts _ =>
      cases b with
      | code body =>
        cases body
        simp only [agree, Bool.and_eq_true, beq_iff_eq] at h
        have := eq_of_agreeAll h.1.2
        simp_all
      | _ => simp [agree] at h
  | _ => cases b <;> simp_all [agree]

theorem eq_of_agreeAll {as bs : List ConstValue} (h : agreeAll (· == ·) as bs = true) :
    as = bs := by
  cases as <;> cases bs <;> simp_all [agreeAll]
  exact ⟨eq_of_agree h.1, eq_of_agreeAll h.2⟩
end

/-- Constants are compared bit by bit. -/
instance : DecidableEq ConstValue := fun a b =>
  if h : agree (· == ·) a b = true then isTrue (eq_of_agree h)
  else isFalse fun e => h (e ▸ agree_refl a)

end ConstValue

/-- Code objects are compared through the constants that hold them. -/
instance : DecidableEq Code := fun a b =>
  decidable_of_iff (ConstValue.code a = .code b) (by simp)

end StubInference
