import StubInference.Proofs.Run.History

/-!
# Operations of an analysis

Whatever an analysis is asked to do, it starts from a state and leaves one behind, also where it ends
in a fault. All operations have one thing in common: the state only grows. Objects are added and
attributes are stored, and every function that was put on the call stack on the way, in however many
frames, has been taken off again.

## Main definitions

* `Operation` — what an analysis can be asked to do, with everything it is given
* `Operation.after` — the machine that an operation leaves behind

## Main results

* `Operation.after_grows` — every operation makes the state grow
* `Operation.callStack_after` — every operation leaves the call stack as it was
-/

namespace StubInference

/-- What an analysis can be asked to do, with everything it is given. -/
inductive Operation where
  | callValue (callee : Value) (args : Args)
  | callVariable (callee : Variable) (args : Args)
  | callFunction (id : FunctionId) (args : Args) (receiver : Option Value)
  | runFunction (id : FunctionId) (args : Args) (receiver : Option Value)
  | analyseFunction (value : Value)
  | buildClass (caller : Surroundings) (args : Args)
  | declare (value : Value)
  /-- Read an attribute of every value of a variable, in some frame. -/
  | loadAttribute (frame : Frame) (object : Variable) (name : String)
  | storeAttribute (object : Variable) (name : String) (var : Variable)
  /-- Execute one instruction of a frame, in whatever state that is. -/
  | execute (frame : Frame) (op : Opcode)
  /-- Run a frame as far as it goes. -/
  | runFrame (frame : Frame)
  | runStage (stage : Stage)

namespace Machine

/-- The machine once a step of the analysis has come to its end, in a result or in a fault. -/
def afterAnalysis {α : Type} (m : Machine) (step : Analysis α) : Machine :=
  { m with context := (step m.context).2 }

/-- The machine once a step of a frame has come to its end. -/
def afterFrame {α : Type} (m : Machine) (frame : Frame) (step : FrameStep α) : Machine :=
  { m with context := (step ⟨frame, m.context⟩).2.context }

end Machine

/-- The machine that an operation leaves behind, in a result or in a fault. -/
def Operation.after (ev : Evaluator) (m : Machine) : Operation → Machine
  | .callValue callee args => m.afterAnalysis (StubInference.callValue ev args callee)
  | .callVariable callee args => m.afterAnalysis (StubInference.callVariable ev callee args)
  | .callFunction id args receiver => m.afterAnalysis (callId ev id args receiver)
  | .runFunction id args receiver => m.afterAnalysis (ev.runFunction id args receiver)
  | .analyseFunction value => m.afterAnalysis (ev.analyseFunction value)
  | .buildClass caller args => m.afterAnalysis (StubInference.buildClass ev caller args)
  | .declare value => m.afterAnalysis (declareWith? ev value)
  | .loadAttribute frame object name => m.afterFrame frame (FrameStep.loadAttribute object name)
  | .storeAttribute object name var =>
    m.afterAnalysis (Analysis.modifyHeap (·.setAttribute object name var))
  | .execute frame op => m.afterFrame frame (FrameStep.execute ev op)
  | .runFrame frame => m.afterAnalysis (frame.run ev)
  | .runStage stage => (stage.runWith ev m).2

namespace Operation

variable {ev : Evaluator}

/-- Every operation makes the state grow, wherever it ends. -/
theorem after_grows (hev : ∀ E, ev.Mirrors E) (op : Operation) (m : Machine) :
    m.context.Grows (op.after ev m).context := by
  -- what a step does to a state does not depend on the renaming, so any of them shows it
  have hev := hev (.past .empty)
  cases op with
  | callValue callee args => exact (callValue_mirrors hev args m.context callee).grows
  | callVariable callee args => exact (callVariable_mirrors hev callee args).grows
  | callFunction id args receiver => exact (callId_mirrors hev id args receiver).grows
  | runFunction id args receiver => exact (runFunction_mirrors hev id args receiver).grows
  | analyseFunction value => exact (analyseFunction_mirrors hev value).grows
  | buildClass caller args => exact (buildClass_mirrors hev caller args).grows
  | declare value => exact (declareWith?_mirrors hev value).grows
  | loadAttribute frame object name =>
    exact (FrameStep.mirrors_loadAttribute (E := .past .empty) (s := ⟨frame, m.context⟩) object
      name).grows.context
  | storeAttribute object name var => exact ⟨.setAttribute object name var, rfl, rfl⟩
  | execute frame op =>
    have executed : Step.Mirrors (Renaming.past .empty).executions ⟨frame, m.context⟩
        (FrameStep.execute ev op) (FrameStep.execute ev op) id :=
      .bind (FrameStep.perform_mirrors hev op) fun _ _ _ => .pure rfl
    exact executed.grows.context
  | runFrame frame => exact (frame.run_mirrors hev).grows
  | runStage stage => exact (Machine.runWith_grows hev stage).context

/-- The call stack is balanced: an operation leaves the functions that are running as they were,
whatever it is given and however deep inside it ends in a fault. -/
theorem callStack_after (depth : Nat) (op : Operation) (m : Machine) :
    (op.after (.atDepth depth) m).context.callStack = m.context.callStack :=
  (op.after_grows (fun E => Evaluator.atDepth_mirrors E depth) m).callStack

end Operation

end StubInference
