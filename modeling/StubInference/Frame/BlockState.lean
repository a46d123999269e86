import StubInference.Fault
import StubInference.Value.Basic

/-!
# Block states

What is known where a block is entered: the locals and the operand stack. Where several edges lead
into a block their states are joined.

## Main definitions

* `BlockState` — locals and stack, the top of the stack first
* `BlockState.merge` — the join of two states
-/

namespace StubInference

/-- Locals and operand stack, the top of the stack first. -/
structure BlockState where
  locals : NameMap Variable
  stack : List Variable

namespace BlockState

/-- A state with these locals and an empty stack. -/
def ofLocals (locals : NameMap Variable) : BlockState := ⟨locals, []⟩

/-- The locals of both sides. A name bound on one side only keeps the values of that side. -/
def mergeLocals (here there : NameMap Variable) : NameMap Variable :=
  there.foldl (fun locals (name, incoming) =>
    locals.upsert name incoming (·.mergeWith incoming)) here

/-- Join two states whose stacks have the same depth. -/
def merge (here there : BlockState) : Except Fault BlockState :=
  if here.stack.length = there.stack.length then
    .ok ⟨mergeLocals here.locals there.locals,
      List.zipWith Variable.mergeWith here.stack there.stack⟩
  else
    .error (.inconsistent (.stackDepths here.stack.length there.stack.length))

end BlockState

end StubInference
