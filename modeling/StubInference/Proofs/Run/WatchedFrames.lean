import StubInference.Proofs.Run.Moments
import StubInference.Proofs.Run.Shadows

/-!
# Watched frames

A frame that is watched does what it would do unwatched, when the watch objects to nothing sound. Only
calls are watched from inside, so an instruction is either one that makes no call, and then adds no
class, or the operands of a call followed by the call.

## Main definitions

* `Watch.Silent` — a watch that objects to no moment of a sound state, where all that there is is known

## Main results

* `FrameStep.watchedStep_shadows` — one instruction
* `Evaluator.watched_shadows` — bodies at every depth
-/

namespace StubInference

open Step

/-- Running frames. -/
def Realm.executions : Realm Execution :=
  ⟨Renaming.executions, (·.context.heap), (·.context.heap), (·.admits)⟩

open Realm (contexts executions)

variable {base : Heap} {s : Execution} {ctx : Context} {ev ev' : Evaluator} {args : Args}

/-! ## Frames and the analysis -/

namespace Realm.Good

theorem context (good : executions.Good base s) : contexts.Good base s.context :=
  ⟨good.base, good.large, fun E fixes => (good.named E fixes).context, good.layered⟩

theorem frame (good : executions.Good base s) : s.context.heap.Holds Frame.rename s.frame :=
  fun E fixes => (good.named E fixes).frame.symm

theorem execution (good : contexts.Good base ctx) {frame : Frame}
    (hframe : ctx.heap.Holds Frame.rename frame) : executions.Good base ⟨frame, ctx⟩ :=
  ⟨good.base, good.large, fun E fixes => ⟨(hframe E fixes).symm, good.named E fixes⟩, good.layered⟩

end Realm.Good

namespace FrameStep

variable {α β : Type}

theorem analysis_shadows {m n : Analysis α} (h : contexts.Shadows s.context m n) :
    executions.Shadows s (analysis m) (analysis n) where
  same := by
    have hm : analysis m s = ((m s.context).1, ⟨s.frame, (m s.context).2⟩) := rfl
    have hn : analysis n s = ((n s.context).1, ⟨s.frame, (n s.context).2⟩) := rfl
    rw [hm, hn, h.same]
  layered := h.layered

theorem analysis_settled {m : Analysis α} {e : Renaming → α → α}
    (h : contexts.Mirrors s.context m e) : executions.Mirrors s (analysis m) e :=
  fun E fixes => mirrors_analysis (h E fixes)

/-! ## Steps that add no class -/

/-- A step of a frame that adds no class. -/
def AddsNoClass (m : FrameStep α) : Prop :=
  ∀ s, (m s).2.context.heap.classes.size = s.context.heap.classes.size

theorem addsNoClass_closed : Closed fun _ m => AddsNoClass m where
  pure _ _ := rfl
  bind first second s := bind_keeps (fun s : Execution => s.context.heap.classes.size) (first s) second
  get _ := rfl
  throw _ _ := rfl
  modifyFrame _ _ := rfl
  record _ _ := rfl
  addFunction _ _ := rfl
  modifyScope _ _ _ := rfl
  setAttribute object name v s := s.context.heap.size_setAttribute object name v

theorem AddsNoClass.shadows {m : FrameStep α} {e : Renaming → α → α} (h : AddsNoClass m)
    (good : executions.Good base s) (settled : executions.Mirrors s m e) :
    executions.Shadows s m m := .of_size good settled (h s)

/-! ## Operands of calls -/

theorem plainOperands_settled (count : Nat) (op : Opcode) :
    executions.Mirrors s (plainOperands count op) fun E =>
      Prod.map (Variable.rename E) (Args.rename E) := by
  intro E _
  unfold plainOperands
  refine .bind (mirrors_popMany count op) fun values _ _ => ?_
  refine .bind (mirrors_pop op) fun upper _ _ => .bind (mirrors_pop op) fun lower _ _ => ?_
  have chosen : (if (lower.rename E).holds .null
        then (upper.rename E, values.map (Variable.rename E))
        else (lower.rename E, upper.rename E :: values.map (Variable.rename E))) =
      Prod.map (Variable.rename E) (List.map (Variable.rename E))
        (if lower.holds .null then (upper, values) else (lower, upper :: values)) := by
    rw [Variable.holds_null_rename]
    split <;> rfl
  rw [chosen]
  generalize (if lower.holds .null then (upper, values) else (lower, upper :: values)) = call
  obtain ⟨callee, values⟩ := call
  refine .bind mirrors_operands fun operands t _ => ?_
  refine .bind (mirrors_modifyFrame (.frame t rfl rfl rfl) rfl) fun _ _ _ => ?_
  exact .bind (mirrors_check (operands.arguments_rename values)) fun args _ _ => .pure rfl

theorem expandedOperands_settled (flags : UInt8) (op : Opcode) :
    executions.Mirrors s (expandedOperands flags op) fun E =>
      Prod.map (Variable.rename E) (Args.rename E) := by
  intro E _
  unfold expandedOperands
  refine .bind (mirrors_popFlagged flags 1 op) fun starStar _ _ => ?_
  refine .bind (mirrors_pop op) fun star _ _ => .bind (mirrors_pop op) fun callee _ _ => ?_
  have finish (t : Execution) : Step.Mirrors E.executions t
      (do
        let operands ← fromFrame (·.operands)
        let args ← check (operands.expanded star starStar)
        pure (callee, args))
      (do
        let operands ← fromFrame (·.operands)
        let args ← check (operands.expanded (star.rename E) (starStar.map (Variable.rename E)))
        pure (callee.rename E, args)) (Prod.map (Variable.rename E) (Args.rename E)) := by
    refine .bind mirrors_operands fun operands _ _ => ?_
    exact .bind (mirrors_check (operands.expanded_rename star starStar)) fun args _ _ => .pure rfl
  refine .bind mirrors_stack fun vs t _ => ?_
  cases vs with
  | nil => exact finish t
  | cons lower rest =>
    simp only [List.map_cons, Variable.holds_null_rename]
    exact .ite Iff.rfl (fun _ => .bind (mirrors_modifyState rfl) fun _ u _ => finish u)
      fun _ => finish t

/-! ## Instructions -/

section Calls

variable {call : Variable → Args → FrameStep Unit} {op : Opcode}

/-- An instruction does what it does with its call replaced, where the call does. -/
theorem perform_shadows (hev : ∀ E : Renaming, ev.Mirrors E) (good : executions.Good base s)
    (hcall : ∀ {t callee args}, executions.Good base t → s.context.heap.SizeLE t.context.heap →
      t.context.heap.Holds Variable.rename callee → t.context.heap.Holds Args.rename args →
      executions.Shadows t (callOn ev callee args) (call callee args)) :
    executions.Shadows s (perform ev op) (performWith ev' call op) := by
  have operands {m : FrameStep (Variable × Args)} (added : AddsNoClass m)
      (settled : executions.Mirrors s m fun E => Prod.map (Variable.rename E) (Args.rename E)) :
      executions.Shadows s (m >>= fun made => callOn ev made.1 made.2)
        (m >>= fun made => call made.1 made.2) := by
    refine .bind good settled (added.shadows good settled) fun made t _ good' le hmade => ?_
    exact hcall good' le (fun E fixes => congrArg Prod.fst (hmade E fixes))
      fun E fixes => congrArg Prod.snd (hmade E fixes)
  by_cases makesCall : (∃ count, op = .call count) ∨ ∃ flags, op = .callFunctionEx flags
  · rcases makesCall with ⟨count, rfl⟩ | ⟨flags, rfl⟩
    · rw [show perform ev (.call count) = callPlain ev count _ from rfl, callPlain_eq]
      exact operands (addsNoClass_closed.plainOperands count _) (plainOperands_settled count _)
    · rw [show perform ev (.callFunctionEx flags) = callExpanded ev flags _ from rfl,
        callExpanded_eq]
      exact operands (addsNoClass_closed.expandedOperands flags _) (expandedOperands_settled flags _)
  · obtain ⟨plain, expanded⟩ := not_or.mp makesCall
    have same : performWith ev' call op = perform ev op := by
      cases op with
      | call count => exact absurd ⟨count, rfl⟩ plain
      | callFunctionEx flags => exact absurd ⟨flags, rfl⟩ expanded
      | _ => rfl
    have added : AddsNoClass (perform ev op) := addsNoClass_closed.perform ev op
      (fun count h => absurd ⟨count, h⟩ plain) fun flags h => absurd ⟨flags, h⟩ expanded
    rw [same]
    exact added.shadows good (e := fun _ => id) fun E _ => perform_mirrors (hev E) op

/-- A call from a frame does what it does under the other evaluator. -/
theorem callOn_shadows (hev : ev.Shadows base ev') (good : executions.Good base s)
    {callee : Variable} (hcallee : s.context.heap.Holds Variable.rename callee)
    (hargs : s.context.heap.Holds Args.rename args) :
    executions.Shadows s (callOn ev callee args) (callOn ev' callee args) := by
  unfold callOn
  refine .read (a := s) rfl ?_
  refine .bind good (analysis_settled (callVariable_settled hev hcallee hargs))
    (analysis_shadows (callVariable_shadows hev good.context hcallee hargs))
    fun result t _ good' _ _ => ?_
  -- what follows the call leaves the heap alone
  refine .of_heap good' ?_
  dsimp only
  split <;> rfl

end Calls

end FrameStep

/-! ## Watches -/

/-- The second step may read before it starts. -/
theorem Realm.Shadows.after {σ α β : Type} {R : Realm σ} {s : σ} {m : ExceptT Fault (StateM σ) α}
    {n : ExceptT Fault (StateM σ) β} {g : β → ExceptT Fault (StateM σ) α} {b : β}
    (now : n s = (.ok b, s)) (rest : R.Shadows s m (g b)) : R.Shadows s m (n >>= g) where
  same := by
    rw [bind_apply, now]
    exact rest.same
  layered := rest.layered

/-- Everything that there is at a moment is in the heap. -/
def Snapshot.Known (heap : Heap) (moment : Snapshot) : Prop := ∀ h ∈ moment.handles, heap.Has h

namespace Snapshot.Known

variable {heap heap' : Heap} {moment : Snapshot}

theorem mono (h : moment.Known heap) (hle : heap.SizeLE heap') : moment.Known heap' :=
  fun handle hmem => hle.has (h handle hmem)

theorem withFrame (h : moment.Known heap) (large : Builtins.heap.SizeLE heap) {frame : Frame}
    (hframe : heap.Holds Frame.rename frame) : (moment.withFrame frame).Known heap := by
  have here := (Heap.has_iff_leaves large frame.handles).mpr fun E fixes =>
    (Frame.rename_eq_self frame).mp (hframe E fixes)
  simp only [Known, Snapshot.handles, Snapshot.withFrame, List.flatMap_cons, List.forall_mem_append]
    at h ⊢
  exact ⟨⟨h.1.1, here, h.1.2⟩, h.2⟩

theorem withCall (h : moment.Known heap) (large : Builtins.heap.SizeLE heap) {callee : Variable}
    {args : Args} (hcallee : heap.Holds Variable.rename callee)
    (hargs : heap.Holds Args.rename args) : (moment.withCall callee args).Known heap := by
  have here := (Heap.has_iff_leaves large (callee.handles ++ args.handles)).mpr fun E fixes =>
    Renaming.leaves_append.mpr ⟨(Variable.rename_eq_self callee).mp (hcallee E fixes),
      (Args.rename_eq_self args).mp (hargs E fixes)⟩
  simp only [Known, Snapshot.handles, Snapshot.withCall, List.flatMap_cons, List.forall_mem_append]
    at h here ⊢
  exact ⟨h.1, here, h.2⟩

end Snapshot.Known

/-- A watch objects to no moment of a sound state where all that there is is in the heap. -/
def Watch.Silent (watch : Watch) : Prop :=
  ∀ {base ctx moment}, contexts.Good base ctx → moment.Known ctx.heap → watch moment ctx = .ok ()

section Watched

variable {watch : Watch} (silent : watch.Silent)
include silent

theorem Watch.Silent.look {moment : Snapshot} (good : contexts.Good base ctx)
    (known : moment.Known ctx.heap) : watch.look moment ctx = (.ok (), ctx) :=
  congrArg (·, ctx) (silent good known)

namespace FrameStep

theorem lookHere_eq {moment : Snapshot} (good : executions.Good base s)
    (known : moment.Known s.context.heap) :
    lookHere watch moment s = (.ok (moment.withFrame s.frame), s) := by
  have seen := silent.look good.context (known.withFrame good.large good.frame)
  have shown : analysis (watch.look (moment.withFrame s.frame)) s = (.ok (), s) := by
    change ((watch.look (moment.withFrame s.frame) s.context).1,
      (⟨s.frame, (watch.look (moment.withFrame s.frame) s.context).2⟩ : Execution)) = _
    rw [seen]
  change (analysis (watch.look (moment.withFrame s.frame)) >>= fun _ =>
    pure (moment.withFrame s.frame)) s = _
  rw [bind_apply, shown]
  rfl

/-- An instruction that is watched does what it does unwatched. -/
theorem watchedStep_shadows {inner : Snapshot → Evaluator} {moment : Snapshot}
    (hev : ∀ E : Renaming, ev.Mirrors E)
    (hinner : ∀ {heap here}, Builtins.heap.SizeLE heap → here.Known heap →
      ev.Shadows heap (inner here))
    (good : executions.Good base s) (known : moment.Known base) (op : Opcode) :
    executions.Shadows s (perform ev op) (watchedStep watch inner moment op) := by
  refine .after (lookHere_eq silent good (known.mono good.base)) ?_
  refine perform_shadows hev good fun {t callee args} good₁ le hcallee hargs => ?_
  have here := (known.mono good₁.base).withCall good₁.large hcallee hargs
  refine .after (lookHere_eq silent good₁ here) ?_
  exact callOn_shadows (hinner good₁.large (here.withFrame good₁.large good₁.frame)) good₁.rebase
    hcallee hargs

end FrameStep

end Watched

/-! ## Whole frames -/

/-- Instructions are executed one after the other. -/
theorem FrameStep.runInstructions_eq (ev : Evaluator) (instructions : List Instruction) :
    runInstructions ev instructions = runInstructionsWith (perform ev) instructions := by
  induction instructions with
  | nil => rfl
  | cons instruction rest ih =>
    cases h : flowAfter instruction.opcode <;>
      simp only [runInstructions, execute, runInstructionsWith, bind_assoc, pure_bind, ih, h]

section Steps

variable {step : Opcode → FrameStep Unit} (hev : ∀ E : Renaming, ev.Mirrors E)
  (hstep : ∀ {t : Execution} (op : Opcode), executions.Good base t →
    executions.Shadows t (FrameStep.perform ev op) (step op))
include hev hstep

namespace FrameStep

theorem runInstructions_shadows (instructions : List Instruction) (good : executions.Good base s) :
    executions.Shadows s (runInstructions ev instructions)
      (runInstructionsWith step instructions) := by
  rw [runInstructions_eq]
  induction instructions generalizing s with
  | nil => exact .pure good _
  | cons instruction rest ih =>
    rw [runInstructionsWith, runInstructionsWith]
    refine .bind good (e := fun _ => id) (fun E _ => mirrors_modifyFrame (.frame s rfl rfl rfl) rfl)
      (.of_heap good rfl) fun _ t _ good₁ _ _ => ?_
    refine .bind good₁ (e := fun _ => id) (fun E _ => mirrors_syncPosition) (.of_heap good₁ rfl)
      fun _ u _ good₂ _ _ => ?_
    refine .bind good₂ (e := fun _ => id) (fun E _ => perform_mirrors (hev E) _)
      (hstep _ good₂) fun _ v _ good₃ _ _ => ?_
    cases flowAfter instruction.opcode with
    | stop => exact .pure good₃ _
    | next => exact ih good₃

theorem runBlock_shadows (index : Nat) (block : Block) (isLast : Bool)
    (good : executions.Good base s) :
    executions.Shadows s (runBlock ev index block isLast) (runBlockWith step index block isLast) := by
  unfold runBlock runBlockWith
  have taken : executions.Mirrors s (takePending index) fun E => Option.map (BlockState.rename E) :=
    fun E _ => mirrors_takePending index
  refine .bind good taken (.of_size good taken (addsNoClass_closed.takePending index s))
    fun found t _ good₁ _ hfound => ?_
  cases found with
  | none => exact .pure good₁ _
  | some state =>
    have entered : executions.Mirrors t
        (modifyFrame fun frame => { frame with block := index, state }) fun _ => id := by
      intro E fixes
      refine mirrors_modifyFrame (.frame t rfl rfl rfl) ?_
      simp only [Frame.rename, Option.some.inj (hfound E fixes)]
    refine .bind good₁ entered (.of_heap good₁ rfl) fun _ u _ good₂ _ _ => ?_
    refine .bind good₂ (e := fun _ => id) (fun E _ => runInstructions_mirrors (hev E) block)
      (runInstructions_shadows hev hstep block good₂) fun flow v _ good₃ _ _ => ?_
    refine .ite (fun _ => ?_) fun _ => .pure good₃ _
    exact (addsNoClass_closed.jump (index + 1)).shadows good₃ (e := fun _ => id)
      fun E _ => mirrors_jump _

theorem runBlocks_shadows (index : Nat) (blocks : List Block) (good : executions.Good base s) :
    executions.Shadows s (runBlocks ev index blocks) (runBlocksWith step index blocks) := by
  induction blocks generalizing s index with
  | nil => exact .pure good _
  | cons block rest ih =>
    exact .bind good (e := fun _ => id) (fun E _ => runBlock_mirrors (hev E) index block _)
      (runBlock_shadows hev hstep index block _ good) fun _ _ _ good₁ _ _ => ih (index + 1) good₁

theorem runAll_shadows (good : executions.Good base s) :
    executions.Shadows s (runAll ev) (runAllWith step) := by
  unfold runAll runAllWith
  refine .read (a := s) rfl (.ite (fun _ => ?_) fun _ => ?_)
  · exact .bind good (e := fun _ => id) (fun E _ => .throw _) (.throw good _)
      fun _ _ h => (by cases h)
  have started : executions.Mirrors s
      (modifyFrame fun frame => { frame with pending := startPending frame }) fun _ => id := by
    intro E _
    refine mirrors_modifyFrame (.frame s rfl rfl rfl) ?_
    simp only [startPending_rename]
    rfl
  refine .bind good started (.of_heap good rfl) fun _ t _ good₁ _ _ => ?_
  refine .bind good₁ (e := fun _ => id) (fun E _ => runBlocks_mirrors (hev E) 0 _)
    (runBlocks_shadows hev hstep 0 _ good₁) fun _ u _ good₂ _ _ => ?_
  exact .of_heap good₂ rfl

end FrameStep

theorem Frame.run_shadows (good : contexts.Good base ctx) {frame : Frame}
    (hframe : ctx.heap.Holds Frame.rename frame) :
    contexts.Shadows ctx (frame.run ev) (frame.runWith step) := by
  have all := FrameStep.runAll_shadows hev hstep (good.execution hframe)
  constructor
  · have same := all.same
    unfold Frame.run Frame.runWith
    rcases hrun : FrameStep.runAll ev ⟨frame, ctx⟩ with ⟨result, done, t⟩
    rw [hrun] at same
    simp only [same]
  · exact all.layered

theorem Frame.runToEnd_shadows (good : contexts.Good base ctx) {frame : Frame}
    (hframe : ctx.heap.Holds Frame.rename frame) :
    contexts.Shadows ctx (frame.runToEnd ev) (frame.runToEndWith step) := by
  have ran : contexts.Mirrors ctx (frame.run ev) fun E => Prod.map (Frame.rename E) id :=
    .of_eq (fun E _ => frame.run_mirrors (hev E)) fun E fixes => by rw [hframe E fixes]
  refine .bind good ran (frame.run_shadows hev hstep good hframe) fun done t _ good₁ _ _ => ?_
  exact .ofExcept good₁ fun _ _ => .pure good₁ _

end Steps

/-! ## Bodies -/

/-- With one more function on the call stack, which is known. -/
theorem Realm.Good.running (good : contexts.Good base ctx) {id : FunctionId}
    (hid : ctx.heap.Holds Renaming.fn id) :
    contexts.Good base { ctx with callStack := id :: ctx.callStack } where
  base := good.base
  large := good.large
  named E fixes := by
    have matched := good.named E fixes
    refine ⟨matched.heap, rfl, ?_⟩
    rw [List.map_cons, hid E fixes, ← matched.callStack]
  layered := good.layered

theorem Analysis.running_shadows {α : Type} {m n : Analysis α} {id : FunctionId}
    (h : contexts.Shadows { ctx with callStack := id :: ctx.callStack } m n) :
    contexts.Shadows ctx (running id m) (running id n) where
  same := by
    unfold running
    dsimp only
    rw [h.same]
  layered := h.layered

theorem Frame.forCall_shadows (good : contexts.Good base ctx) (id : FunctionId)
    (function : InterpretedFunction) (locals : NameMap Variable) :
    contexts.Shadows ctx (forCall id function locals) (forCall id function locals) :=
  ⟨rfl, good.layered⟩

/-- A body whose instructions are executed by a step that does the same. -/
theorem Evaluator.runIn_shadows {step : Opcode → FrameStep Unit}
    (hev : ∀ E : Renaming, ev.Mirrors E)
    (hstep : ∀ {t : Execution} (op : Opcode), executions.Good base t →
      executions.Shadows t (FrameStep.perform ev op) (step op))
    (good : contexts.Good base ctx) {id : FunctionId} {function : InterpretedFunction}
    {locals : NameMap Variable} (hid : ctx.heap.Holds Renaming.fn id)
    (hfunction : ctx.heap.Holds InterpretedFunction.rename function)
    (hlocals : ctx.heap.Holds Renaming.locals locals) :
    contexts.Shadows ctx (runIn ev id function locals) (runInWith step id function locals) := by
  have made : contexts.Mirrors ctx (Frame.forCall id function locals) Frame.rename :=
    .of_eq (fun _ _ => Frame.forCall_mirrors id function locals) fun E fixes => by
      rw [hid E fixes, hfunction E fixes, show locals.mapValues _ = locals from hlocals E fixes]
  unfold runIn runInWith
  refine .bind good made (Frame.forCall_shadows good id function locals)
    fun frame t _ good₁ le hframe => ?_
  have ran : contexts.Mirrors t (Analysis.running id (frame.runToEnd ev)) Frame.rename :=
    .of_eq (fun E _ => Analysis.mirrors_running id (frame.runToEnd_mirrors (hev E))) fun E fixes => by
      rw [hid.mono le E fixes, hframe E fixes]
  refine .bind good₁ ran ?_ fun done u _ good₂ _ _ => ?_
  · exact Analysis.running_shadows
      (frame.runToEnd_shadows hev hstep (good₁.running (hid.mono le)) hframe)
  · exact ⟨rfl, good₂.layered⟩

/-- Bodies that are watched do what they do unwatched, at every depth. -/
theorem Evaluator.watched_shadows {watch : Watch} (silent : watch.Silent) (depth : Nat)
    {moment : Snapshot} (large : Builtins.heap.SizeLE base) (known : moment.Known base) :
    (atDepth depth).Shadows base (watched watch depth moment) := by
  -- on the levels inside, at whatever moment they are entered
  induction depth generalizing base moment with
  | zero =>
    exact ⟨fun E => atDepth_mirrors E 0, fun good _ _ _ => .throw good _,
      fun good _ _ _ => .throw good _, fun good _ _ => .throw good _⟩
  | succ depth ih =>
    have inner (E : Renaming) := atDepth_mirrors E depth
    have body {ctx : Context} {id : FunctionId} {function : InterpretedFunction}
        {locals : NameMap Variable} (good : contexts.Good base ctx)
        (hid : ctx.heap.Holds Renaming.fn id)
        (hfunction : ctx.heap.Holds InterpretedFunction.rename function)
        (hlocals : ctx.heap.Holds Renaming.locals locals) : contexts.Shadows ctx
        (runIn (atDepth depth) id function locals)
        (runInWith (FrameStep.watchedStep watch (watched watch depth) moment) id function locals) :=
      runIn_shadows inner (fun op good => FrameStep.watchedStep_shadows silent inner
        (fun large here => ih large here) good known op) good hid hfunction hlocals
    refine ⟨fun E => atDepth_mirrors E (depth + 1), body, body, fun good hcallee hargs => ?_⟩
    have hvar : Heap.Holds _ Variable.rename _ := fun E fixes => by
      rw [Variable.rename_var, hcallee E fixes]
    have here := (known.mono good.base).withCall good.large hvar hargs
    exact .after (silent.look good here)
      (callValue_shadows (ih good.large here) good.rebase hargs hcallee)

/-- Bodies lead from sound states to sound ones. -/
theorem Evaluator.atDepth_shadows (depth : Nat) (large : Builtins.heap.SizeLE base) :
    (atDepth depth).Shadows base (atDepth depth) := by
  -- those that are watched by a watch that never objects do
  have silent : Watch.Silent fun _ _ => .ok () := fun _ _ => rfl
  have watched := watched_shadows silent depth large (show (Snapshot.idle []).Known base from nofun)
  exact ⟨watched.mirrors,
    fun good hid hfunction hlocals => ⟨rfl, (watched.body good hid hfunction hlocals).layered⟩,
    fun good hid hfunction hlocals => ⟨rfl, (watched.classBody good hid hfunction hlocals).layered⟩,
    fun good hcallee hargs => ⟨rfl, (watched.call good hcallee hargs).layered⟩⟩

end StubInference
