import StubInference.Call.Arguments
import StubInference.Frame.BlockState

/-!
# Frames

A frame executes one code object. It is a plain record here: what it was given, where it stands,
and what it has found out so far.

## Main definitions

* `FrameKind` — module or function
* `Frame` — the record
* `Frame.returned?` — the join of everything returned
-/

namespace StubInference

/-- Whether a frame runs a module, whose names are also its globals, or a function. -/
inductive FrameKind where
  | module
  | function
  deriving DecidableEq

/-- A frame. -/
structure Frame where
  name : String
  kind : FrameKind
  code : Code
  site : CodeSite
  /-- The function that the frame runs, if it is not a module frame. -/
  function : Option FunctionId
  globals : ScopeId
  /-- The cells of the frames around, outermost first. -/
  enclosing : List ScopeId
  cells : ScopeId
  operands : Operands
  initialLocals : NameMap Variable
  /-- Entry states of blocks not executed yet, by block number. -/
  pending : List (Nat × BlockState)
  state : BlockState
  block : Nat
  line : Nat
  /-- Functions created in the frame, in order. -/
  functions : List FunctionId
  /-- Classes built by class statements in the frame. -/
  classes : List ClassId
  /-- Locals at every return, merged. -/
  finalLocals : NameMap Variable
  returns : List Variable
  finished : Bool

namespace Frame

/-- A frame about to run, with the tables of names it may see. -/
def start (name : String) (kind : FrameKind) (code : Code) (site : CodeSite)
    (function : Option FunctionId) (globals : ScopeId) (enclosing : List ScopeId) (cells : ScopeId)
    (initialLocals : NameMap Variable) : Frame where
  name
  kind
  code
  site
  function
  globals
  enclosing
  cells
  operands := ⟨⟨name, globals, enclosing ++ [cells]⟩, none⟩
  initialLocals
  pending := []
  state := ⟨[], []⟩
  block := 0
  line := 0
  functions := []
  classes := []
  finalLocals := []
  returns := []
  finished := false

/-- The join of everything returned, if anything was. -/
def returned? (frame : Frame) : Option Variable :=
  if frame.returns.isEmpty then none else some (.merge frame.returns)

end Frame

end StubInference
