import StubInference.Proofs.Frame.Following
import StubInference.Proofs.Run.Veils

/-!
# Safety of the operand stack

A module whose code objects use the stack consistently never makes an analysis end in a fault of the
stack: a frame of such a code object ends in one only where a call does that it makes.

## Main results

* `Confinement.excludes_stack` — consistent code excludes faults of the stack
* `Machine.consistent_module` — sessions on consistent code end in no fault of the stack, and runs of
  one code object that succeed go the same way
-/

namespace StubInference

open Step

/-- A frame whose code is consistent ends in a fault of the stack only where a call does. -/
theorem Confinement.excludes_stack (options : Options) :
    (Confinement.everywhere options CodeOver.StackConsistent).Excludes .stack where
  body hev _ hcode _ _ := .of_avoids (Evaluator.runIn_avoids_of_frame fun _ =>
    Frame.runToEnd_avoids hev (.start ..) (hcode _ (List.mem_cons_self ..)))
  module hev _ hcode _ := .of_avoids (Frame.forModule_avoids_of_frame fun _ _ =>
    Frame.runToEnd_avoids hev (.start ..) (hcode _ (List.mem_cons_self ..)))

namespace Machine

/-- Where a module and all code objects within it use the stack consistently, no stage of an analysis
of the module ends in a fault of the stack, whatever the options are and however deep bodies may nest.
And whatever two runs of a frame of one of these code objects start with, if they succeed they execute
the same blocks, with the same depth of the stack before each instruction. -/
theorem consistent_module (module : Code)
    (consistent : ∀ body ∈ module.nested, body.StackConsistent) :
    (∀ (options : Options) (depth : Nat) (stages : List Stage),
      (∀ code, .runModule code ∈ stages → code = module) →
      ∀ result ∈ (session (.atDepth depth) stages (.new options)).1,
        (∀ code op, result ≠ .error (.stackUnderflow code op)) ∧
          ∀ here there, result ≠ .error (.inconsistent (.stackDepths here there))) ∧
    ∀ body ∈ module.nested, ∀ (frame frame' left left' : Frame) (ev ev' : Evaluator)
      (ctx ctx' after after' : Context), frame.Given body → frame'.Given body →
      frame.run ev ctx = (.ok (left, .ok ()), after) →
      frame'.run ev' ctx' = (.ok (left', .ok ()), after') →
      ∃ moments, frame.trace ev ctx = .ok moments ∧ frame'.trace ev' ctx' = .ok moments := by
  constructor
  · intro options depth stages only result hresult
    have avoids := session_avoids_everywhere (Confinement.excludes_stack options) (by decide)
      consistent only depth result hresult
    constructor
    · rintro code op rfl
      exact avoids _ rfl .stack rfl rfl
    · rintro here there rfl
      exact avoids _ rfl .stack rfl rfl
  · intro body hbody frame frame' left left' ev ev' ctx ctx' after after' given given' run run'
    obtain ⟨⟨moments, table⟩, outline⟩ := Option.isSome_iff_exists.mp (consistent body hbody)
    exact ⟨moments, Frame.trace_eq_outline given outline run,
      Frame.trace_eq_outline given' outline run'⟩

/-- The code of a function that calls another one in a loop. -/
def loopingFunction : Code :=
  let test := (((CodeBuilder.new "f").addParams ["items"]).op (.loadFast "items")).op .getIter
  let loop := (test.newBlock.op (.forIter 3)).op (.storeFast "item")
  let body := ((((loop.newBlock.op (.loadGlobal "g" true)).op (.loadFast "item")).op (.call 1)).op
    .popTop).op (.jumpBackward 1)
  body.newBlock.returnNone.build

/-- The code of a module with that function and the one it calls. -/
def loopingModule : Code :=
  let called := ((CodeBuilder.new "g").addParams ["x"]).returnNone.build
  ((CodeBuilder.module.defFunction called "g").defFunction loopingFunction "f").returnNone.build

/-- The analysis of the module ends in no fault of the stack, and two runs of the function go the same
way, with an argument and without. -/
theorem loopingModule_consistent : (∀ body ∈ loopingModule.nested, body.StackConsistent) ∧
    (∀ depth, ∀ result ∈ (session (.atDepth depth)
        [.runModule loopingModule, .analyseDefinitions, .inferStub] (.new .standard)).1,
      (∀ code op, result ≠ .error (.stackUnderflow code op)) ∧
        ∀ here there, result ≠ .error (.inconsistent (.stackDepths here there))) ∧
    ∃ moments, ∀ locals ∈ [[], [("items", Value.noneObject.var)]],
      (Frame.start "f" .function loopingFunction ⟨0, [1]⟩ none ⟨0⟩ [] ⟨0⟩ locals).trace
        interpreter (.new .standard) = .ok moments := by
  have consistent : ∀ body ∈ loopingModule.nested, body.StackConsistent := by decide +kernel
  have safe := consistent_module loopingModule consistent
  refine ⟨consistent, fun depth => safe.1 .standard depth _ (by simp), ?_⟩
  let frame (locals : NameMap Variable) : Frame :=
    .start "f" .function loopingFunction ⟨0, [1]⟩ none ⟨0⟩ [] ⟨0⟩ locals
  have runs : ∀ locals ∈ [[], [("items", Value.noneObject.var)]], ∃ left after,
      (frame locals).run interpreter (.new .standard) = (.ok (left, .ok ()), after) := by
    intro locals hlocals
    have ends : ∀ locals ∈ [[], [("items", Value.noneObject.var)]],
        ((frame locals).runToEnd interpreter (.new .standard)).1.isOk = true := by decide +kernel
    obtain ⟨left, after, run⟩ := Step.exists_of_isOk (ends locals hlocals)
    refine ⟨left, after, ?_⟩
    rw [Frame.run, Frame.runToEnd_eq_ok.mp run]
  -- both runs succeed, so they have the same moments
  obtain ⟨left, after, run⟩ := runs [] (by simp)
  obtain ⟨left', after', run'⟩ := runs [("items", Value.noneObject.var)] (by simp)
  obtain ⟨moments, trace, trace'⟩ := safe.2 loopingFunction (by decide +kernel) _ _ left left' _ _ _ _
    after after' (.start ..) (.start ..) run run'
  exact ⟨moments, by simpa using ⟨trace, trace'⟩⟩

end Machine

end StubInference
