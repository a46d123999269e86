import StubInference.Frame.Run

/-!
# The interpreter

Bodies run calls and calls run bodies. The evaluators are stacked: each may go one level deeper than
the one below it, and the lowest refuses to run anything. Calls are guarded, but the bodies of
class statements are not, so without this bound a body that builds itself again would never end.

## Main definitions

* `Evaluator.atDepth` — the evaluator that may nest bodies so deep
* `interpreter` — the evaluator that analyses start with
-/

namespace StubInference

namespace Evaluator

/-- Run a body in a new frame with its function on the call stack, and store the frame. -/
def runIn (ev : Evaluator) (id : FunctionId) (function : InterpretedFunction)
    (locals : NameMap Variable) : Analysis FrameId := do
  let frame ← Frame.forCall id function locals
  let frame ← Analysis.running id (frame.runToEnd ev)
  Analysis.withHeap (·.addFrame frame)

/-- The evaluator that may nest bodies so deep. -/
def atDepth : Nat → Evaluator
  | 0 =>
    ⟨fun _ _ _ => throw (.inconsistent .unbounded), fun _ _ _ => throw (.inconsistent .unbounded),
      fun _ _ => throw (.inconsistent .unbounded)⟩
  | depth + 1 =>
    ⟨runIn (atDepth depth), runIn (atDepth depth),
      fun callee args => callValue (atDepth depth) args callee⟩

end Evaluator

/-- How deep bodies may be nested. -/
def depthLimit : Nat := 4096

/-- The evaluator that analyses start with. -/
def interpreter : Evaluator := .atDepth depthLimit

end StubInference
