import StubInference.Power
import StubInference.Settings.Reader
import StubInference.Version

/-!
# Analysis options

Options are read from a settings document in which every setting is optional and unknown ones are
passed over.

## Main definitions

* `Options` — the options of one analysis
* `Options.ofSettings?`, `Options.parse?` — read them
-/

namespace StubInference

/-- The options of one analysis: the version that the code was compiled for, the interpreter to
compile with, the name of the analysed file, the name of the exported module, and how many calls
may be nested before a call is no longer followed. -/
structure Options where
  version : Version
  interpreter : Option String
  input : Option String
  moduleName : String
  maxCallDepth : Nat
  deriving DecidableEq

namespace Options

/-- The options where nothing is set. -/
def standard : Options := ⟨.standard, none, none, "inferred", 16⟩

/-- The text that a setting is bound to, or the default where it is not bound. -/
def textSetting? {α : Type} (table : Settings.Table) (name : String) (default : α)
    (read : String → Option α) : Option α :=
  match table.get? name with
  | none => some default
  | some (.value (.text value)) => read value
  | some _ => none

/-- The count that a setting is bound to, or the default where it is not bound. -/
def countSetting? (table : Settings.Table) (name : String) (default : Nat) : Option Nat :=
  match table.get? name with
  | none => some default
  | some (.value (.integer value)) =>
    if 0 ≤ value ∧ value < twoTo 64 then some value.toNat else none
  | some _ => none

/-- The options that a settings document holds. -/
def ofSettings? (table : Settings.Table) : Option Options := do
  let version ← textSetting? table "python_version" standard.version fun source =>
    (Version.parse source).toOption
  let interpreter ← textSetting? table "python_exe" standard.interpreter (some ∘ some)
  let input ← textSetting? table "input" standard.input (some ∘ some)
  let moduleName ← textSetting? table "module_name" standard.moduleName some
  let maxCallDepth ← countSetting? table "max_call_depth" standard.maxCallDepth
  pure { version, interpreter, input, moduleName, maxCallDepth }

/-- Read options from the text of a settings document. -/
def parse? (source : String) : Option Options := (Settings.parse? source).bind ofSettings?

end Options

end StubInference
