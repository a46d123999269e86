/-!
# Findings

A finding is a problem of the analysed program. The offending expression may then be anything and
the analysis goes on. The log keeps findings in order and each only once, so that a body that is
analysed again reports nothing twice.

## Main definitions

* `Position` — where a finding was made
* `FindingKind`, `Finding` — what is wrong, and where
* `Log`, `Log.record` — findings in order
-/

namespace StubInference

/-- A place in the analysed program: the qualified name of a code object and a line. -/
structure Position where
  code : String
  line : Nat
  deriving DecidableEq

/-- What is wrong. -/
inductive FindingKind where
  | nameError (name : String)
  | attributeError (object member : String)
  | notCallable (object : String)
  | wrongArgCount (function problem : String)
  | assertType (expected actual : String)
  | revealType (type : String)
  deriving DecidableEq

/-- The short name of a kind of findings. -/
def FindingKind.name : FindingKind → String
  | .nameError _ => "name-error"
  | .attributeError _ _ => "attribute-error"
  | .notCallable _ => "not-callable"
  | .wrongArgCount _ _ => "wrong-arg-count"
  | .assertType _ _ => "assert-type"
  | .revealType _ => "reveal-type"

/-- The text of a finding without its place. -/
def FindingKind.message : FindingKind → String
  | .nameError name => s!"name '{name}' is not defined"
  | .attributeError object member => s!"no attribute '{member}' on {object}"
  | .notCallable object => s!"{object} is not callable"
  | .wrongArgCount function problem => s!"invalid call to {function}: {problem}"
  | .assertType expected actual => s!"expected type {expected}, got {actual}"
  | .revealType type => type

/-- The kind of findings with that short name and those words. -/
def FindingKind.ofWords? : (name : String) → (words : List String) → Option FindingKind
  | "name-error", [name] => some (.nameError name)
  | "attribute-error", [object, member] => some (.attributeError object member)
  | "not-callable", [object] => some (.notCallable object)
  | "wrong-arg-count", [function, problem] => some (.wrongArgCount function problem)
  | "assert-type", [expected, actual] => some (.assertType expected actual)
  | "reveal-type", [type] => some (.revealType type)
  | _, _ => none

/-- A finding. -/
structure Finding where
  kind : FindingKind
  position : Position
  deriving DecidableEq

/-- The text of a finding with its place and its short name. -/
def Finding.text (finding : Finding) : String :=
  s!"{finding.position.code}:{finding.position.line}: {finding.kind.message} [{finding.kind.name}]"

/-- Findings in the order in which they were recorded. -/
abbrev Log := List Finding

namespace Log

/-- Record a finding unless the same one is there. -/
def record (log : Log) (finding : Finding) : Log :=
  if finding ∈ log then log else log ++ [finding]

/-- Whether a finding with this short name was recorded. -/
def has (log : Log) (name : String) : Bool := log.any (·.kind.name == name)

/-- The findings line by line. -/
def text (log : Log) : String := String.join (log.map fun finding => finding.text ++ "\n")

end Log

end StubInference
