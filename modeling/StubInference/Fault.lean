import StubInference.Bytecode.Format
import StubInference.Stub.Assembly
import StubInference.Text.Quoted

/-!
# Faults

A fault ends the step of the analysis that meets it. Problems of the analysed program are findings
instead and end nothing. A panic ends more: there is no further step of anything behind it.

## Main definitions

* `Phase` — how far the analysis of a module has come
* `Unhandled` — inputs that the analysis does not cover
* `Inconsistency` — broken instruction streams and misused operations
* `Fault` — every reason to stop, and `Fault.message`, its text
* `Fault.ofPanic` — a computation in machine words as one that may end in a fault
-/

namespace StubInference

/-- How far the analysis of a module has come: nothing has run, the module body has run, its
definitions are being analysed, all of them have been. -/
inductive Phase where
  | idle
  | moduleRun
  | defAnalysis
  | done
  deriving DecidableEq

/-- The name of a phase. -/
def Phase.name : Phase → String
  | .idle => "Idle"
  | .moduleRun => "ModuleRun"
  | .defAnalysis => "DefAnalysis"
  | .done => "Done"

/-- An input that the analysis does not cover. -/
inductive Unhandled where
  | constantIndex (index : Nat) (code : String)
  | jumpTarget (target : Nat) (code : String) (blocks : Nat)
  | classArity (count : Nat)
  | baseKind (cls kind : String)
  | baseCount (cls : String) (count : Nat)
  | keywordCount (key cls : String) (count : Nat)
  | positionalUnpacking (kind : String)
  | keywordUnpacking (kind : String)
  deriving DecidableEq

/-- The text of an input that is not covered. -/
def Unhandled.message : Unhandled → String
  | .constantIndex index code => s!"constant index {index} out of range in {code}"
  | .jumpTarget target code blocks =>
    s!"jump to block {target} in {code}, which has {blocks} blocks"
  | .classArity count => s!"__build_class__ takes a body and a name, got {count} arguments"
  | .baseKind cls kind => s!"base of class {cls} is a {kind}, not a class"
  | .baseCount cls count => s!"base of class {cls} has {count} possible values"
  | .keywordCount key cls count => s!"keyword {key} of class {cls} has {count} possible values"
  | .positionalUnpacking kind => s!"cannot unpack a {kind} as positional arguments"
  | .keywordUnpacking kind => s!"cannot unpack a {kind} as keyword arguments"

/-- A broken instruction stream, or an operation used where it must not be. -/
inductive Inconsistency where
  | frameHasRun (frame : String)
  | nullCall
  | noCallingFrame
  | notInterpreted (function : String)
  | noClassBuilder
  | stackDepths (here there : Nat)
  | namesStillPending (names pending : List String)
  | namesExceedOperands (names operands : Nat)
  | namesAtExpandedCall (pending : List String)
  | moduleHasRun (phase : Phase)
  | cannotAnalyse (phase : Phase)
  | noModule
  | unmappedArgument (name : String)
  /-- The nesting of bodies or the queue of definitions outgrew its bound. -/
  | unbounded
  deriving DecidableEq

/-- The text of an inconsistency. -/
def Inconsistency.message : Inconsistency → String
  | .frameHasRun frame => s!"frame {frame} has already run"
  | .nullCall => "call of a NULL stack entry"
  | .noCallingFrame => "__build_class__ called without a frame"
  | .notInterpreted function => s!"{function} is not an interpreter function"
  | .noClassBuilder => "builtins lack __build_class__"
  | .stackDepths here there => s!"stack depth mismatch at block entry: {here} vs {there}"
  | .namesStillPending names pending =>
    "keyword names " ++ Text.quotedList names ++ " set while " ++ Text.quotedList pending ++
      " are still pending"
  | .namesExceedOperands names operands => s!"{names} keyword names for {operands} operands"
  | .namesAtExpandedCall pending =>
    "keyword names " ++ Text.quotedList pending ++ " pending at an expanded call"
  | .moduleHasRun phase => s!"module already run (state {phase.name})"
  | .cannotAnalyse phase => s!"cannot analyze definitions in state {phase.name}"
  | .noModule => "no module has been run"
  | .unmappedArgument name => s!"argument '{name}' was not mapped"
  | .unbounded => "the analysis does not end"

/-- A reason to stop. -/
inductive Fault where
  | notAtomic (count : Nat)
  | typeMismatch (expected actual : String)
  | unhandled (cause : Unhandled)
  | inconsistent (cause : Inconsistency)
  | stackUnderflow (code opcode : String)
  | unreadable (cause : Code.ReadError)
  | assembly (cause : Stub.AssemblyError)
  | panic (cause : Panic)
  deriving DecidableEq

/-- The text of a fault. -/
def Fault.message : Fault → String
  | .notAtomic count => s!"expected exactly one value, got {count}"
  | .typeMismatch expected actual => s!"expected {expected}, got {actual}"
  | .unhandled cause => "unhandled input: " ++ cause.message
  | .inconsistent cause => "internal consistency violation: " ++ cause.message
  | .stackUnderflow code opcode => s!"stack underflow in {code} at {opcode}"
  | .unreadable .malformed => "invalid code object"
  | .unreadable (.versionMismatch expected found) =>
    s!"code compiled for python {found.text}, expected {expected.text}"
  | .assembly cause => cause.message
  | .panic cause => cause.message

/-- What has to be computed without a panic. -/
def Fault.ofPanic {α : Type} : Except Panic α → Except Fault α
  | .ok a => .ok a
  | .error cause => .error (.panic cause)

end StubInference
