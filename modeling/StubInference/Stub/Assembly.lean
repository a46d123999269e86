import StubInference.Stub.Basic

/-!
# Assembling a module

A module is assembled from loose definitions in order. Constants of one name have their types
joined, functions of one name have their signatures gathered, and both keep the place of the first.
A second class of a name and a name of two kinds are faults.

## Main definitions

* `Stub.Kind` — the kind of a definition
* `Stub.AssemblyError` — why definitions do not fit together
* `Stub.assemble` — the module that definitions make up
-/

namespace StubInference.Stub

/-- The kind of a definition. -/
inductive Kind where
  | constant
  | function
  | classDef
  deriving DecidableEq

/-- The word for a kind. -/
def Kind.word : Kind → String
  | .constant => "constant"
  | .function => "function"
  | .classDef => "class"

/-- The kind of a definition. -/
def Definition.kind : Definition → Kind
  | .constant _ => .constant
  | .function _ => .function
  | .classDef _ => .classDef

/-- Why definitions do not make up a module. -/
inductive AssemblyError where
  | duplicateClass (name : String)
  | nameConflict (name : String) (first second : Kind)
  deriving DecidableEq

/-- The text of an assembly fault. -/
def AssemblyError.message : AssemblyError → String
  | .duplicateClass name => s!"duplicate top-level class '{name}'"
  | .nameConflict name first second =>
    s!"'{name}' is defined both as a {first.word} and as a {second.word}"

/-- Change the first item that passes the test, or append a new one when none does. -/
def mergeOrAppend {α : Type} (test : α → Bool) (merge : α → α) (fresh : α) : List α → List α
  | [] => [fresh]
  | item :: rest =>
    if test item then merge item :: rest else item :: mergeOrAppend test merge fresh rest

/-- Append the signatures that are not in the list yet, each once. -/
def addSignatures (known : List Signature) : List Signature → List Signature
  | [] => known
  | s :: rest => addSignatures (if s ∈ known then known else known ++ [s]) rest

/-- Declare a constant, joining its type with that of an earlier one. -/
def addConstant (constants : List Constant) (constant : Constant) : List Constant :=
  mergeOrAppend (·.name == constant.name)
    (fun old => { old with type := .unionAll [old.type, constant.type] }) constant constants

/-- Declare a function, adding its signatures to those of an earlier one. -/
def addFunction (functions : List Function) (function : Function) : List Function :=
  mergeOrAppend (·.name == function.name)
    (fun old => { old with signatures := addSignatures old.signatures function.signatures })
    function functions

/-- A module under assembly and the kind first seen for each name. -/
structure Assembly where
  unit : Module
  kinds : NameMap Kind

/-- Add a definition. -/
def Assembly.add (assembly : Assembly) (definition : Definition) :
    Except AssemblyError Assembly := do
  let kind := definition.kind
  let first := (assembly.kinds.get? definition.name).getD kind
  if first ≠ kind then throw (.nameConflict definition.name first kind)
  let kinds := assembly.kinds.insert definition.name kind
  let unit := assembly.unit
  match definition with
  | .constant constant =>
    pure ⟨{ unit with constants := addConstant unit.constants constant }, kinds⟩
  | .function function =>
    pure ⟨{ unit with functions := addFunction unit.functions function }, kinds⟩
  | .classDef cls =>
    if unit.classes.any (·.name == cls.name) then throw (.duplicateClass cls.name)
    pure ⟨{ unit with classes := unit.classes ++ [cls] }, kinds⟩

/-- The module of that name that definitions make up. The first definition that does not fit is
the one reported. -/
def assemble (name : String) (definitions : List Definition) : Except AssemblyError Module := do
  let assembly ← definitions.foldlM Assembly.add ⟨⟨name, [], [], []⟩, []⟩
  pure assembly.unit

end StubInference.Stub
