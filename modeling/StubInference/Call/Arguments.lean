import StubInference.Value.Atomic

/-!
# Arguments of a call

A call passes positional and keyword arguments. When a list of arguments is expanded whose length
is unknown, or a dictionary whose keys are, the call carries it along as unknown.

The operands of a call instruction become arguments here. An instruction before it may have named
the trailing operands; these names wait until the call uses them up.

## Main definitions

* `Surroundings` — the tables of names that code created or called in a frame can see
* `Args` — normalized arguments
* `Operands` — the frame a call is made from, with the keyword names that wait
* `Operands.expectNames`, `Operands.arguments`, `Operands.expanded` — the three instructions
-/

namespace StubInference

/-- The tables of names that a frame shows to code created or called in it: the name of the frame,
its globals, and the cells of the frames around, outermost first. -/
structure Surroundings where
  name : String
  globals : ScopeId
  enclosing : List ScopeId

/-- Normalized arguments of a call. -/
structure Args where
  positional : List Variable
  keywords : NameMap Variable
  /-- Positional arguments of unknown number. -/
  star : Option Variable
  /-- Keyword arguments with unknown names. -/
  starStar : Option Variable
  /-- The frame that the call was made from. -/
  frame : Option Surroundings

namespace Args

/-- No arguments. -/
def empty : Args := ⟨[], [], none, none, none⟩

/-- Put the receiver in front of the positional arguments. -/
def withReceiver (args : Args) (receiver : Option Value) : Args :=
  match receiver with
  | some receiver => { args with positional := receiver.var :: args.positional }
  | none => args

end Args

/-- The positional arguments that `*args` stands for, where they are known. -/
def unpackPositional (var : Variable) : Except Fault (Option (List Variable)) := do
  match ← var.atomic with
  | .argTuple elements => pure elements
  | .frozen _ | .any => pure none
  | .tuple elements => pure elements
  | .list elements => pure elements
  | .literal (.tuple items) => pure (Value.literal (.tuple items)).knownElements?
  | other => throw (.unhandled (.positionalUnpacking other.typeName))

/-- The keyword arguments that `**kwargs` stands for, where they are known. -/
def unpackKeywords (var : Variable) : Except Fault (Option (NameMap Variable)) := do
  match ← var.atomic with
  | .argDict entries => pure entries
  | .frozen _ | .any => pure none
  | .dict entries => namedEntries entries
  | other => throw (.unhandled (.keywordUnpacking other.typeName))

/-- The arguments with an expanded sequence as the positional ones. -/
def Args.expandStar (args : Args) (star : Variable) : Except Fault Args := do
  match ← unpackPositional star with
  | some elements => pure { args with positional := elements }
  | none => pure { args with star := some star }

/-- The arguments with an expanded dictionary as the keywords, if there is one. -/
def Args.expandStarStar (args : Args) (starStar : Option Variable) : Except Fault Args := do
  match starStar with
  | none => pure args
  | some var =>
    match ← unpackKeywords var with
    | some entries => pure { args with keywords := entries }
    | none => pure { args with starStar := some (Value.argDict none).var }

/-- The frame that calls are made from and the keyword names of the next call. -/
structure Operands where
  frame : Surroundings
  names : Option (List String)

namespace Operands

/-- Name the trailing operands of the next call. Names may not wait already. -/
def expectNames (operands : Operands) (names : List String) : Except Fault Operands :=
  match operands.names with
  | some pending => .error (.inconsistent (.namesStillPending names pending))
  | none => .ok { operands with names := some names }

/-- Use up the names that wait. -/
def clear (operands : Operands) : Operands := { operands with names := none }

/-- The arguments of a call: the trailing operands go with the names that wait, the others are
positional. -/
def arguments (operands : Operands) (values : List Variable) : Except Fault Args :=
  let names := operands.names.getD []
  if names.length ≤ values.length then
    let count := values.length - names.length
    .ok { Args.empty with
      positional := values.take count
      keywords := NameMap.ofEntries (names.zip (values.drop count))
      frame := some operands.frame }
  else
    .error (.inconsistent (.namesExceedOperands names.length values.length))

/-- The arguments of a call that expands a sequence and maybe a dictionary. No names may wait. -/
def expanded (operands : Operands) (star : Variable) (starStar : Option Variable) :
    Except Fault Args :=
  match operands.names with
  | some pending => .error (.inconsistent (.namesAtExpandedCall pending))
  | none => do
    let args ← { Args.empty with frame := some operands.frame }.expandStar star
    args.expandStarStar starStar

end Operands

end StubInference
