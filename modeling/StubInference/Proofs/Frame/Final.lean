import StubInference.Interpreter
import StubInference.Proofs.Frame.Course
import StubInference.Proofs.Frame.Effect
import StubInference.Proofs.Frame.Reaching
import StubInference.Proofs.Renaming.Step

/-!
# The returns of a body

Returns are the only instructions that add to the locals that a frame ends with, in a module and in
a function alike, and a name that is there already keeps its place. So the locals that a body ends
with bind no name twice. They are also the only ones that add to what a frame returns, so a frame
returns nothing just where it comes to no return.

## Main definitions

* `Frame.Gathers` — what an instruction adds at the returns
* `Visit.Returns` — an instruction that returns

## Main results

* `FrameStep.perform_gathers` — returns add something, and nothing else does
* `Frame.VisitedAs.returned?_eq_none_iff` — a frame that comes to no return returns nothing
* `Frame.runToEnd_distinct` — a frame ends with distinct names
* `Evaluator.runClass_distinct` — and so does the body of a class statement
-/

namespace StubInference

open Step FrameStep

/-- What an instruction adds to what a frame has gathered at its returns: a return adds its locals and
its value, and nothing else adds anything. -/
inductive Frame.Gathers (here : Frame) : Opcode → Frame → Prop
  | returns {there : Frame} {v : Variable}
      (final : there.finalLocals = FrameStep.addFinalLocals here.finalLocals here.state.locals)
      (values : there.returns = here.returns ++ [v]) : Gathers here .returnValue there
  | stays {op : Opcode} {there : Frame} (other : op ≠ .returnValue)
      (final : there.finalLocals = here.finalLocals) (values : there.returns = here.returns) :
      Gathers here op there

theorem Frame.Beside.gathers {here there : Frame} {op : Opcode} (beside : here.Beside there)
    (other : op ≠ .returnValue) : here.Gathers op there :=
  .stays other beside.final beside.returns

theorem FrameStep.Leads.gathers {here there : Frame} {op : Opcode} {target : Nat}
    (leads : Leads target here there) (other : op ≠ .returnValue) : here.Gathers op there := by
  cases leads with
  | forward _ _ _ beside => exact .stays other beside.final beside.returns
  | back _ beside => exact beside.gathers other

namespace FrameStep

variable {ev : Evaluator} {op : Opcode} {s t : Execution} {name : String}

/-- An instruction of a function that binds or unbinds a name. -/
theorem perform_function_gathers (function : s.frame.kind = .function)
    (names : op.storedName? = some name ∨ op.deletedName? = some name)
    (ht : perform ev op s = (.ok (), t)) : s.frame.Gathers op t.frame := by
  have popped (other : op ≠ .returnValue) (m : Variable → FrameStep Unit)
      (hm : ∀ v (u : Execution), u.frame.kind = .function → m v u = (.ok (), t) →
        t.frame.finalLocals = u.frame.finalLocals ∧ t.frame.returns = u.frame.returns)
      (h : (do m (← pop op)) s = (.ok (), t)) : s.frame.Gathers op t.frame := by
    obtain ⟨v, u, hu, h⟩ := Step.bind_eq_ok.mp h
    obtain ⟨rest, -, rfl⟩ := pop_eq_ok.mp hu
    obtain ⟨final, values⟩ := hm v (s.withState { s.frame.state with stack := rest }) function h
    exact .stays other final values
  cases op <;> simp only [Opcode.storedName?, Opcode.deletedName?, reduceCtorEq, or_self] at names
  case storeName | storeFast =>
    refine popped (by simp) _ (fun v u hu h => ?_) ht
    rw [storeLocal_apply hu] at h
    cases h
    exact ⟨rfl, rfl⟩
  case storeGlobal =>
    refine popped (by simp) _ (fun v u hu h => ?_) ht
    rw [storeGlobal, Step.bind_apply, fromFrame_apply] at h
    simp only [hu] at h
    cases h
    exact ⟨rfl, rfl⟩
  case deleteName | deleteFast =>
    rw [perform, deleteLocal_apply function] at ht
    cases ht
    exact .stays (by simp) rfl rfl

/-- What an instruction of any frame gathers. -/
theorem perform_gathers (ht : perform ev op s = (.ok (), t)) : s.frame.Gathers op t.frame := by
  by_cases returns : op = .returnValue
  · subst returns
    obtain ⟨rest, v, -, rfl⟩ := returnTop_eq_ok.mp ht
    exact .returns rfl rfl
  cases jumps : op.jumpTarget? with
  | some target => exact (perform_leads jumps ht).gathers returns
  | none =>
    -- names are bound in the globals too in a module, and in the locals only in a function
    cases kind : s.frame.kind with
    | module =>
      cases perform_effect kind ht with
      | stores _ _ beside | deletes _ beside => exact .stays returns beside.final beside.returns
      | stays _ _ _ _ beside => exact beside.gathers returns
      | returns => exact absurd rfl returns
      | leads _ leads => exact leads.gathers returns
    | function =>
      cases stores : op.storedName? with
      | some name => exact perform_function_gathers kind (.inl stores) ht
      | none =>
        cases deletes : op.deletedName? with
        | some name => exact perform_function_gathers kind (.inr deletes) ht
        | none =>
          have stays : Stays s.frame (perform ev op) :=
            perform_stays ev stores deletes jumps returns
          obtain ⟨-, beside, -⟩ := stays s ⟨.refl _, trivial⟩
          rw [ht] at beside
          exact beside.1.gathers returns

end FrameStep

section Courses

variable {ev : Evaluator} {blocks : List Block} {point : Point} {s t : Execution}
  {visits : List Visit}

/-- A run adds no name twice to what a frame ends with. -/
theorem Course.distinct_final (course : Course ev blocks point s visits t)
    (distinct : s.frame.finalLocals.names.Nodup) : t.frame.finalLocals.names.Nodup := by
  have kept {op : Opcode} {here there : Frame} (h : here.Gathers op there)
      (distinct : here.finalLocals.names.Nodup) : there.finalLocals.names.Nodup := by
    cases h with
    | returns final => exact final ▸ nodup_mergeLocals distinct
    | stays _ final => exact final ▸ distinct
  induction course with
  | done => exact distinct
  | skip _ _ _ ih | enter _ _ _ ih | last _ _ ih => exact ih distinct
  | next performed _ _ ih | stop performed _ _ ih =>
    exact ih (kept (perform_gathers performed) distinct)
  | fall _ jumped _ ih =>
    have moves : Frame.Gathers _ .nop _ := (enter_leads rfl (jump_eq_ok.mp jumped)).gathers (by simp)
    exact ih (kept moves distinct)

/-- A run adds to what has been returned just where it comes to a return. -/
theorem Course.returns_ne_nil_iff (course : Course ev blocks point s visits t) :
    t.frame.returns ≠ [] ↔
      s.frame.returns ≠ [] ∨ ∃ visit ∈ visits, visit.instruction.opcode = .returnValue := by
  have added {op : Opcode} {here there : Frame} (h : here.Gathers op there) :
      there.returns ≠ [] ↔ here.returns ≠ [] ∨ op = .returnValue := by
    cases h with
    | returns _ values => simp [values]
    | stays other _ values => simp [values, other]
  induction course with
  | done => simp
  | skip _ _ _ ih | enter _ _ _ ih | last _ _ ih => exact ih
  | next performed _ _ ih | stop performed _ _ ih =>
    refine ih.trans ((or_congr_left (added (perform_gathers performed))).trans ?_)
    simp only [List.mem_cons, exists_eq_or_imp, or_assoc]
    rfl
  | fall _ jumped _ ih =>
    have moves : Frame.Gathers _ .nop _ := (enter_leads rfl (jump_eq_ok.mp jumped)).gathers (by simp)
    refine ih.trans (or_congr_left ((added moves).trans ?_))
    simp

/-- An instruction that was executed returns. -/
def Visit.Returns (visit : Visit) : Prop := visit.instruction.opcode = .returnValue

/-- A frame returns nothing just where no instruction that it executes returns. -/
theorem Frame.VisitedAs.returned?_eq_none_iff {start done : Frame} {ctx ctx' : Context}
    (visited : start.VisitedAs ev ctx visits done ctx') (fresh : start.returns = []) :
    done.returned? = none ↔ ∀ visit ∈ visits, ¬ visit.Returns := by
  obtain ⟨last, course, rfl⟩ := visited
  have returned := course.returns_ne_nil_iff
  have none : (start.entering ctx).frame.returns = [] := fresh
  simp only [none, ne_eq, not_true_eq_false, false_or] at returned
  unfold Frame.returned?
  cases values : last.returns with
  | nil => simpa [values, Visit.Returns] using returned
  | cons v rest =>
    simp only [values, reduceCtorEq, not_false_eq_true, true_iff] at returned
    obtain ⟨visit, hvisit, returns⟩ := returned
    simp only [List.isEmpty_cons, Bool.false_eq_true, if_false, reduceCtorEq, false_iff]
    exact fun never => never visit hvisit returns

end Courses

/-- A frame ends with distinct names. -/
theorem Frame.runToEnd_distinct {ev : Evaluator} {start done : Frame} {ctx ctx' : Context}
    (fresh : start.finalLocals = []) (run : start.runToEnd ev ctx = (.ok done, ctx')) :
    done.finalLocals.names.Nodup := by
  obtain ⟨visits, last, course, rfl⟩ := Frame.exists_visits run
  apply course.distinct_final
  change start.finalLocals.names.Nodup
  rw [fresh]
  exact List.nodup_nil

namespace Evaluator

variable {ev : Evaluator} {depth : Nat} {id : FunctionId} {ctx ctx' : Context} {frame : FrameId}

theorem runIn_distinct {function : InterpretedFunction} {locals : NameMap Variable}
    (run : runIn ev id function locals ctx = (.ok frame, ctx')) :
    (ctx'.heap.frameAt frame).finalLocals.names.Nodup := by
  obtain ⟨start, t, started, run⟩ := Step.bind_eq_ok.mp run
  obtain ⟨done, u, ran, added⟩ := Step.bind_eq_ok.mp run
  obtain ⟨after, body, rfl⟩ := Analysis.running_eq_ok ran
  cases started
  cases added
  simpa [Heap.frameAt, Heap.addFrame] using Frame.runToEnd_distinct rfl body

/-- The body of a class statement ends with distinct names. -/
theorem runClass_distinct (run : (atDepth depth).runClass id ctx = (.ok frame, ctx')) :
    (ctx'.heap.frameAt frame).finalLocals.names.Nodup := by
  obtain ⟨⟨function, locals⟩, t, -, body⟩ := Step.bind_eq_ok.mp run
  cases depth with
  | zero => cases body
  | succ depth => exact runIn_distinct body

end Evaluator

end StubInference
