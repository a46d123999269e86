import StubInference.Proofs.Bytecode.Layout
import StubInference.Proofs.Bytecode.Written
import StubInference.Proofs.Frame.Depth
import StubInference.Proofs.Run.History
import StubInference.Proofs.Run.Veils

/-!
# Machine words

The counts of parameters and the operands of instructions are words, but sums and products of them need
not be. Two instructions compute such: one takes keys with values, twice as many entries of the stack as
it says, and the other one makes a function, whose parameters have to be found. An analysis ends in a
panic where an instruction does.

## Main definitions

* `CodeOver.InWords` — what is computed of the counts and operands of a code object is a word

## Main results

* `FrameStep.perform_avoidsOn` — instructions of such code end in no panic
* `Confinement.excludes_word` — such code excludes panics
* `Machine.session_defining_panics` — a module ends in a panic where parameters cannot be found
* `Machine.session_words` — sessions on such code end in no panic, and what happens on other code
-/

namespace StubInference

open Step

/-- What is computed of the counts of a code object, and of the operands of its instructions, is a
word. -/
structure CodeOver.InWords {Constant : Type} (code : CodeOver Constant) : Prop where
  sums : code.SumsFit
  operands : ∀ block ∈ code.blocks, ∀ instruction ∈ block, instruction.opcode.InWords

instance {Constant : Type} (code : CodeOver Constant) : Decidable code.InWords :=
  decidable_of_iff (code.SumsFit ∧ ∀ block ∈ code.blocks, ∀ instruction ∈ block,
    instruction.opcode.InWords) ⟨fun h => ⟨h.1, h.2⟩, fun h => ⟨h.sums, h.operands⟩⟩

namespace FrameStep

/-! ## Instructions -/

section Instructions

variable {K : Confinement} {start : Frame} {stack : List FunctionId} {ev : Evaluator} {op : Opcode}
  (found : ∀ site code, K.code site code → code.SumsFit)

include found

/-- Code that may run has parameters that can be found. -/
theorem functionOf_avoidsWord {codeVar : Variable} (hcode : codeVar.Confined K.code)
    (defaults : List Variable) (kwDefaults : NameMap Variable) :
    Step.Avoids (some .word) (functionOf codeVar defaults kwDefaults) := by
  refine Spends.avoids fun _ _ => spends_functionOf defaults kwDefaults fun _ site code hvalue => ?_
  have hliteral : Value.Confined K.code (.literal (.code site code)) := hcode.atomic hvalue
  rw [CodeOver.checkLayout_eq_ok.mpr (found site code hliteral.literal.code)]
  rfl

theorem makeFunction_avoidsOn (flags : UInt8) (op : Opcode) :
    AvoidsOn (K.Within start stack) (some .word) (makeFunction flags op) := by
  have popped (bit : UInt8) : Step.Avoids (some .word) (popFlagged flags bit op) :=
    Spends.avoids fun _ _ => spends_popFlagged flags bit op nofun
  have checked {α : Type} {result : Except Fault α} (plain : Fault.Plain result) :
      Step.Avoids (some .word) (check result) := Spends.avoids fun _ _ => spends_check plain
  unfold makeFunction
  refine .after (Spends.avoids fun _ _ => spends_pop op nofun) (agree_pop op) fun codeVar hcode => ?_
  refine .of_avoids (.bind (popped 8) fun _ => .bind (popped 4) fun _ => .bind (popped 2) fun kw => ?_)
  refine .bind (checked ?_) fun kwDefaults => .bind (popped 1) fun var => .bind (checked ?_)
    fun defaults => functionOf_avoidsWord found hcode defaults kwDefaults
  · cases kw with
    | none => exact .ok _
    | some v => exact keywordDefaults_plain v
  · cases var with
    | none => exact .ok _
    | some v => exact positionalDefaults_plain v

/-- An instruction ends in a panic only where a call does, or where what it computes is no word. -/
theorem perform_avoidsOn (hev : ev.Avoids (some .word)) (words : op.InWords) :
    AvoidsOn (K.Within start stack) (some .word) (perform ev op) := by
  by_cases makes : ∃ flags, op = .makeFunction flags
  · obtain ⟨flags, rfl⟩ := makes
    refine .bind (makeFunction_avoidsOn found flags _) (agree_makeFunction flags _) fun v _ => ?_
    exact .of_avoids (Spends.avoids fun _ _ => spends_pushValue v)
  · exact .of_avoids (perform_avoids (by decide) hev fun _ => ⟨words, fun flags h => makes ⟨flags, h⟩⟩)

/-! ## Blocks -/

theorem runInstructions_avoidsOn (hev : ev.Avoids (some .word)) (same : Evaluator.Agree K stack ev ev)
    {instructions : List Instruction} (spares : Spares K start instructions)
    (words : ∀ instruction ∈ instructions, instruction.opcode.InWords) :
    AvoidsOn (K.Within start stack) (some .word) (runInstructions ev instructions) := by
  induction instructions with
  | nil => exact .of_avoids (.pure _)
  | cons instruction rest ih =>
    simp only [Spares, List.forall_mem_cons] at spares words
    refine .after (.modify _) (agree_modifyFrame fun _ hf => { hf with }) fun _ _ => ?_
    refine .after (Spends.avoids fun _ _ => spends_syncPosition) agree_syncPosition fun _ _ => ?_
    have performed : AvoidsOn (K.Within start stack) _ _ := perform_avoidsOn found hev words.1
    have agrees := perform_agree same spares.1
    refine .bind (performed.bind agrees fun _ _ => .of_avoids (.pure _))
      (.bind (R := fun _ => True) agrees fun _ _ => .pure trivial) fun flow _ => ?_
    cases flow with
    | stop => exact .of_avoids (.pure _)
    | next => exact ih spares.2 words.2

theorem runBlock_avoidsOn (hev : ev.Avoids (some .word)) (same : Evaluator.Agree K stack ev ev)
    (index : Nat) {block : Block} (spares : Spares K start block)
    (words : ∀ instruction ∈ block, instruction.opcode.InWords) (isLast : Bool) :
    AvoidsOn (K.Within start stack) (some .word) (runBlock ev index block isLast) := by
  refine .after (takePending_avoids index) (agree_takePending index) fun entry hentry => ?_
  cases entry with
  | none => exact .of_avoids (.pure _)
  | some state =>
    refine .after (.modify _) (agree_modifyFrame fun _ hf => { hf with state := hentry state rfl })
      fun _ _ => ?_
    refine .bind (runInstructions_avoidsOn found hev same spares words)
      (runInstructions_agree same spares) fun flow _ => .of_avoids (.ite ?_ (.pure _))
    exact jump_avoids (by decide) _

theorem runBlocks_avoidsOn (hev : ev.Avoids (some .word)) (same : Evaluator.Agree K stack ev ev)
    (index : Nat) {blocks : List Block} (spares : ∀ block ∈ blocks, Spares K start block)
    (words : ∀ block ∈ blocks, ∀ instruction ∈ block, instruction.opcode.InWords) :
    AvoidsOn (K.Within start stack) (some .word) (runBlocks ev index blocks) := by
  induction blocks generalizing index with
  | nil => exact .of_avoids (.pure _)
  | cons block rest ih =>
    simp only [List.forall_mem_cons] at spares words
    exact .bind (runBlock_avoidsOn found hev same index spares.1 words.1 _)
      (runBlock_agree same index spares.1 _) fun _ _ => ih (index + 1) spares.2 words.2

theorem runAll_avoidsOn (hev : ev.Avoids (some .word)) (same : Evaluator.Agree K stack ev ev)
    (apart : start.Apart K)
    (words : ∀ block ∈ start.code.blocks, ∀ instruction ∈ block, instruction.opcode.InWords) :
    AvoidsOn (K.Within start stack) (some .word) (runAll ev) := by
  refine .after .get .get fun s hs => .ite (fun _ => ?_) fun _ => ?_
  · exact .after (Q := fun _ => False) (.throw (.of_kind? rfl)) (.throw _) fun _ h => h.elim
  refine .after (.modify _) (agree_modifyFrame fun frame hf => { hf with pending := ?_ }) fun _ _ => ?_
  · refine List.forall_mem_cons.mpr ⟨⟨hf.initial, by simp [BlockState.ofLocals]⟩, ?_⟩
    exact fun entry hentry => hf.pending entry (List.mem_of_mem_filter hentry)
  · have spares := spares_of_apart hs.1.admitted apart
    rw [hs.1.code]
    exact .bind (runBlocks_avoidsOn found hev same 0 spares words)
      (runBlocks_agree same 0 spares) fun _ _ => .of_avoids (.modify _)

end Instructions

end FrameStep

/-! ## Frames -/

section Frames

variable {K : Confinement} {start : Frame} {stack : List FunctionId} {ev : Evaluator}

/-- With a function on the call stack a step does what it does with it there. -/
theorem Analysis.avoidsOn_running {α : Type} {step : Analysis α} {watched : Option Fault.Kind}
    (id : FunctionId) (h : AvoidsOn (K.Holds (id :: stack)) watched step) :
    AvoidsOn (K.Holds stack) watched (running id step) := fun ctx hctx fault hfault =>
  h { ctx with callStack := id :: ctx.callStack } ⟨hctx.heap, hctx.options,
    congrArg (id :: ·) hctx.callStack, hctx.base, hctx.kept⟩ fault hfault

/-- A frame of such code ends in a panic only where a call does. -/
theorem Frame.runToEnd_avoidsOn (found : ∀ site code, K.code site code → code.InWords)
    (hev : ev.Avoids (some .word)) (same : Evaluator.Agree K stack ev ev)
    (h : start.Confined K start) (apart : start.Apart K) :
    AvoidsOn (K.Holds stack) (some .word) (start.runToEnd ev) := by
  intro ctx hctx fault hfault
  have all := FrameStep.runAll_avoidsOn (fun site code hcode => (found site code hcode).sums) hev same
    apart (found _ _ apart.code).operands ⟨start, ctx⟩ ⟨h, hctx⟩
  rw [runToEnd, Step.bind_apply, Frame.run] at hfault
  rcases hrun : FrameStep.runAll ev ⟨start, ctx⟩ with ⟨fault' | _, left⟩ <;> rw [hrun] at hfault all
  · cases hfault
    exact all fault rfl
  · cases hfault

/-- Code that stays within words excludes panics. -/
theorem Confinement.excludes_word (found : ∀ site code, K.code site code → code.InWords) :
    K.Excludes .word where
  body {ev stack id function locals} hev same hcode hglobals hlocals := by
    have made : Avoids (some .word) (Frame.forCall id function locals) :=
      .bind (Analysis.avoids_withHeap _) fun _ => .pure _
    refine .after made (Frame.forCall_agree id hcode hglobals hlocals) fun start hstart => ?_
    have ends := Frame.runToEnd_avoidsOn found hev same hstart.1 hstart.2
    refine .bind (Analysis.avoidsOn_running id ends)
      (Analysis.running_agree id (Frame.runToEnd_agree same hstart.1 hstart.2)) fun _ _ => ?_
    exact .of_avoids (Analysis.avoids_withHeap _)
  module {ev code site} hev same hcode hall := by
    have made : Avoids (some .word) (Frame.forModule code site) :=
      .bind (Analysis.avoids_withHeap _) fun _ => .bind (Analysis.avoids_withHeap _) fun _ => .pure _
    exact .after made (Frame.forModule_agree hcode hall) fun start hstart =>
      Frame.runToEnd_avoidsOn found hev same hstart.1 hstart.2

end Frames

/-! ## Beyond words -/

namespace FrameStep

variable {ev : Evaluator} {s : Execution}

/-- An instruction whose operand outgrows a word ends in a panic, whatever is on the stack. -/
theorem perform_panics {op : Opcode} (h : ¬ op.InWords) :
    perform ev op s = (.error (.panic .multiplyOverflow), s) := by
  simp only [Opcode.InWords, not_forall] at h
  obtain ⟨count, counts, outgrown⟩ := h
  cases op <;> cases counts
  rw [perform, Panic.multiply, if_neg outgrown]
  rfl

/-- So does one that makes a function whose parameters cannot be found. -/
theorem perform_makeFunction_panics {v : Variable} {rest : List Variable} {site : CodeSite}
    {code : Code} (top : s.frame.state.stack = v :: rest)
    (holds : v.atomic = .ok (.literal (.code site code))) (unfit : ¬ code.SumsFit) :
    (perform ev (.makeFunction 0) s).1 = .error (.panic .addOverflow) := by
  have popped : pop (.makeFunction 0) s = (.ok v, s.withState { s.frame.state with stack := rest }) :=
    pop_eq_ok.mpr ⟨rest, top, rfl⟩
  refine Step.fst_bind_of_error ?_
  rw [makeFunction, bind_of_ok popped]
  change (functionOf v [] [] _).1 = _
  rw [functionOf, holds]
  change ((check (Fault.ofPanic code.checkLayout) >>= _ : FrameStep Value) _).1 = _
  rw [CodeOver.checkLayout_eq, if_neg unfit]
  rfl

end FrameStep

/-- The code of a module that defines a function. -/
def CodeOver.defining (code : Code) : Code :=
  (CodeBuilder.module.defFunction code code.name).build

/-- The instructions of such a module. The first one loads the code of the function, and the second one
makes it. -/
def CodeOver.definingBlock (code : Code) : Block :=
  [⟨.loadConst 0, 1⟩, ⟨.makeFunction 0, 1⟩, ⟨.storeName code.name, 1⟩]

theorem FrameStep.runInstructions_defining_panics {ev : Evaluator} {code : Code} (unfit : ¬ code.SumsFit)
    {s : Execution} (defines : s.frame.code = code.defining) :
    (runInstructions ev code.definingBlock s).1 = .error (.panic .addOverflow) := by
  have loaded : perform ev (.loadConst 0) (s.atLine 1) =
      pushValue (.literal (.code (s.frame.site.child 0) code)) (s.atLine 1) := by
    refine bind_of_ok (check_eq_ok.mpr ⟨?_, rfl⟩)
    change Code.literalAt s.frame.code s.frame.site 0 = _
    rw [defines]
    rfl
  rw [CodeOver.definingBlock, runInstructions_cons loaded rfl]
  exact runInstructions_cons_of_error (perform_makeFunction_panics rfl rfl unfit)

/-- A frame of a module that defines a function whose parameters cannot be found ends in a panic. -/
theorem Frame.runToEnd_defining_panics {ev : Evaluator} {code : Code} (unfit : ¬ code.SumsFit)
    {frame : Frame} (defines : frame.code = code.defining) (fresh : frame.finished = false)
    (ctx : Context) : (frame.runToEnd ev ctx).1 = .error (.panic .addOverflow) := by
  have blocks : frame.code.blocks = [code.definingBlock] := by rw [defines]; rfl
  have got : (get : FrameStep Execution) ⟨frame, ctx⟩ = (.ok ⟨frame, ctx⟩, ⟨frame, ctx⟩) := rfl
  have entered : FrameStep.modifyFrame
      (fun frame => { frame with pending := FrameStep.startPending frame }) ⟨frame, ctx⟩ =
      (.ok (), ⟨{ frame with pending := FrameStep.startPending frame }, ctx⟩) := rfl
  have all : (FrameStep.runAll ev ⟨frame, ctx⟩).1 = .error (.panic .addOverflow) := by
    rw [FrameStep.runAll, bind_of_ok got]
    dsimp only
    rw [fresh, blocks, if_neg Bool.false_ne_true, bind_of_ok entered]
    refine fst_bind_of_error ?_
    have found : [code.definingBlock][0]? = some code.definingBlock := rfl
    rw [← List.drop_zero (l := [code.definingBlock]), FrameStep.runBlocks_drop found]
    exact fst_bind_of_error (fst_bind_of_error
      (FrameStep.runInstructions_defining_panics unfit defines))
  rw [runToEnd, bind_apply, Frame.run]
  rcases hrun : FrameStep.runAll ev ⟨frame, ctx⟩ with ⟨_ | _, left⟩ <;> rw [hrun] at all <;> cases all
  rfl

/-- A module that defines a function whose parameters cannot be found ends in a panic. -/
theorem Machine.session_defining_panics {code : Code} (unfit : ¬ code.SumsFit) (options : Options)
    (ev : Evaluator) : (session ev [.runModule code.defining] (.new options)).1 =
      [.error (.panic .addOverflow)] := by
  have record (ctx : Context) (site : CodeSite) :
      (recordModule ev code.defining site ctx).1 = .error (.panic .addOverflow) := by
    obtain ⟨frame, ctx', made⟩ := exists_of_isOk (r := Frame.forModule code.defining site ctx) rfl
    refine fst_bind_of_error ?_
    rw [bind_of_ok made]
    cases made
    exact Frame.runToEnd_defining_panics unfit rfl rfl _
  have idle : (new options).phase = .idle := rfl
  have stage : ((Stage.runModule code.defining).runWith ev (.new options)).1 =
      .error (.panic .addOverflow) := by
    rw [Stage.runWith]
    refine fst_bind_of_error ?_
    rw [runModuleWith_apply, if_neg (not_not.mpr idle)]
    have recorded := record { (new options).context with roots := (new options).context.roots + 1 }
      ⟨(new options).context.roots, []⟩
    split <;> rename_i run <;> rw [run] at recorded <;> cases recorded
    rfl
  exact congrArg (fun result => [result]) stage

/-! ## Sessions -/

/-- The parameters of a code object can be found just where the sums of its counts are words, and are
those of its layout then. Where they cannot be found, a module that defines the function ends in a panic,
and so does an instruction where the product of its operand is no word. Nothing else does: where a module
and all code objects within it stay within words, no stage of an analysis of the module ends in a panic,
whatever the options are and however deep bodies may nest. -/
theorem Machine.session_words (code : Code) :
    (code.checkLayout = if code.SumsFit then .ok () else .error .addOverflow) ∧
    (code.SumsFit → code.positionalSlice = .ok code.positionalParams ∧
      code.kwOnlySlice = .ok code.kwOnlyParams ∧ code.varArgsEntry = .ok code.varArgsName? ∧
      code.varKeywordsEntry = .ok code.varKeywordsName?) ∧
    (¬ code.SumsFit → ∀ options ev, (session ev [.runModule code.defining] (.new options)).1 =
      [.error (.panic .addOverflow)]) ∧
    (∀ (op : Opcode) (ev : Evaluator) (s : Execution), ¬ op.InWords →
      FrameStep.perform ev op s = (.error (.panic .multiplyOverflow), s)) ∧
    ((∀ body ∈ code.nested, body.InWords) → ∀ (options : Options) (depth : Nat) (stages : List Stage),
      (∀ other, .runModule other ∈ stages → other = code) →
      ∀ result ∈ (session (.atDepth depth) stages (.new options)).1, ∀ cause,
        result ≠ .error (.panic cause)) := by
  refine ⟨code.checkLayout_eq, CodeOver.reads_of_sumsFit, session_defining_panics,
    fun _ _ _ => FrameStep.perform_panics, fun words options depth stages only result hresult => ?_⟩
  rintro cause rfl
  have excludes : (Confinement.everywhere options CodeOver.InWords).Excludes .word :=
    Confinement.excludes_word fun _ body hbody => hbody body (List.mem_cons_self ..)
  exact session_avoids_everywhere excludes (by decide) words only depth _ hresult _ rfl .word rfl rfl

/-- A module with a function that has as many positional parameters as a word can count, of which the
list of names holds one. -/
def countingModule : Code :=
  CodeOver.defining { ((CodeBuilder.new "f").addParams ["a"]).returnNone.build with
    argCount := twoTo 64 - 1 }

/-- The analysis of the module ends in no panic, but with one keyword-only parameter more it does. -/
theorem countingModule_words : (∀ body ∈ countingModule.nested, body.InWords) ∧
    (∀ depth, ∀ result ∈ (Machine.session (.atDepth depth) [.runModule countingModule,
      .analyseDefinitions, .inferStub] (.new .standard)).1, ∀ cause, result ≠ .error (.panic cause)) := by
  have words : ∀ body ∈ countingModule.nested, body.InWords := by decide +kernel
  have safe := (Machine.session_words countingModule).2.2.2.2 words .standard
  exact ⟨words, fun depth => safe depth _ (by simp)⟩

/-- A code object with one parameter more than a word can count. -/
def outgrownCode : Code where
  name := "m"
  qualName := ""
  fileName := ""
  firstLine := 0
  version := none
  argCount := twoTo 64 - 1
  posOnlyArgCount := 0
  kwOnlyArgCount := 1
  varArgs := false
  varKeywords := false
  varNames := ["a"]
  consts := []
  blocks := []

/-- The code object is read, but its parameters cannot be found, and a module with that function ends in a
panic. -/
theorem outgrownCode_panics :
    Code.read outgrownCode.toJson.compact .standard none = .ok outgrownCode ∧
      outgrownCode.kwOnlySlice = .error .addOverflow ∧
      (Machine.session interpreter [.runModule outgrownCode.defining] (.new .standard)).1 =
        [.error (.panic .addOverflow)] := by
  refine ⟨?_, by decide, Machine.session_defining_panics (by decide) .standard _⟩
  have back : (Json.parse? outgrownCode.toJson.compact).bind Code.ofJson? = some outgrownCode :=
    Code.parse?_compact (by decide +kernel) nofun (by decide +kernel)
  rw [Code.read, back]
  rfl

end StubInference
