import StubInference.Machine

/-!
# Inferring and checking

The whole analysis of one module, from its code object to a stub or to findings.

## Main definitions

* `inferTypesWith`, `inferTypes` — the stub of a module and the findings made on the way
* `checkTypesWith`, `checkTypes` — the findings alone
* `inferTypesFrom` — the same from the written form of the code object
-/

namespace StubInference

/-- The result of a step on a new machine. -/
def onNewMachine {α : Type} (options : Options) (step : MachineStep α) : Except Fault α :=
  (step.run (.new options)).1

/-- Infer the stub of a module and the findings made on the way. -/
def inferTypesWith (ev : Evaluator) (code : Code) (options : Options) :
    Except Fault (Stub.Module × Log) :=
  onNewMachine options do
    let _ ← Machine.runModuleWith ev code
    Machine.analyseDefinitionsWith ev
    let unit ← Machine.inferStubWith ev
    pure (unit, ← Machine.takeFindings)

/-- Analyse a module for its findings alone. -/
def checkTypesWith (ev : Evaluator) (code : Code) (options : Options) : Except Fault Log :=
  onNewMachine options do
    let _ ← Machine.runModuleWith ev code
    Machine.analyseDefinitionsWith ev
    Machine.takeFindings

/-- Infer the stub of a module and the findings under the interpreter. -/
def inferTypes : Code → Options → Except Fault (Stub.Module × Log) := inferTypesWith interpreter

/-- Analyse a module for its findings under the interpreter. -/
def checkTypes : Code → Options → Except Fault Log := checkTypesWith interpreter

/-- Read a code object as the options ask for it. -/
def readCode (source : String) (options : Options) : Except Fault Code :=
  match Code.read source options.version options.input with
  | .ok code => .ok code
  | .error cause => .error (.unreadable cause)

/-- Infer the stub of a module from the written form of its code object. -/
def inferTypesFrom (source : String) (options : Options) : Except Fault (Stub.Module × Log) := do
  inferTypes (← readCode source options) options

end StubInference
