import StubInference.Interpreter
import StubInference.Proofs.Frame.Joins
import StubInference.Proofs.Run.SafeCalls

/-!
# Frames are safe

Whatever code a frame runs, its locals, its stack and its tables stay filled, and no assertion about it
fails: the builder of classes is there to be loaded, each call carries the frame that it is made from,
and a new frame has not run yet. Bodies run calls and calls run bodies, so both are safe at any depth.

## Main definitions

* `Execution.Filled` — a filled frame in a filled state

## Main results

* `FrameStep.perform_safe` — instructions
* `Frame.runToEnd_safe` — whole frames
* `Evaluator.atDepth_safe` — bodies at any depth
-/

namespace StubInference

open Step

/-- The frame and the state of the analysis are filled. -/
abbrev Execution.Filled : Execution → Prop := FrameStep.Both Frame.Filled Context.Filled

namespace FrameStep

variable {ev : Evaluator} {op : Opcode}

/-! ## Locals and stack -/

theorem safe_changeState {change : BlockState → BlockState}
    (h : ∀ state, state.Filled → (change state).Filled) :
    Step.Safe Execution.Filled (modifyState change) fun _ => True :=
  safe_modifyFrame fun frame hframe => { hframe with state := h frame.state hframe.state }

theorem safe_push {v : Variable} (hv : v.Filled) :
    Step.Safe Execution.Filled (push v) fun _ => True :=
  safe_changeState fun _ h => ⟨h.locals, List.forall_mem_cons.mpr ⟨hv, h.stack⟩⟩

/-- A read of which nothing is needed. -/
theorem safe_look {α : Type} (read : Frame → α) :
    Step.Safe Execution.Filled (fromFrame read) fun _ => True := safe_fromFrame fun _ _ => trivial

theorem safe_pushValue {a : Value} (ha : a.Filled) :
    Step.Safe Execution.Filled (pushValue a) fun _ => True :=
  .bind (safe_look _) fun line _ => safe_push (.ofValueAt ha (.line line))

theorem safe_underflow {α : Type} (op : Opcode) {Q : α → Prop} :
    Step.Safe Execution.Filled (underflow op) Q := .bind (safe_look _) fun _ _ => .throw rfl

theorem safe_stack : Step.Safe Execution.Filled FrameStep.stack fun vs => ∀ v ∈ vs, v.Filled :=
  safe_fromFrame fun _ h => h.state.stack

theorem safe_pop (op : Opcode) : Step.Safe Execution.Filled (pop op) Variable.Filled := by
  unfold pop
  refine .bind safe_stack fun vs hvs => ?_
  cases vs with
  | nil => exact safe_underflow op
  | cons top rest =>
    obtain ⟨htop, hrest⟩ := List.forall_mem_cons.mp hvs
    exact .bind (safe_changeState fun _ h => ⟨h.locals, hrest⟩) fun _ _ => .pure htop

theorem safe_popMany (count : Nat) (op : Opcode) :
    Step.Safe Execution.Filled (popMany count op) fun vs => ∀ v ∈ vs, v.Filled := by
  unfold popMany
  refine .bind safe_stack fun vs hvs => .ite (fun _ => ?_) fun _ => ?_
  · exact .bind (Q := fun _ => False) (safe_underflow op) fun _ h => h.elim
  · refine .bind (safe_changeState fun _ h => ⟨h.locals, fun v hv => ?_⟩) fun _ _ => .pure ?_
    · exact hvs v (List.mem_of_mem_drop hv)
    · exact fun v hv => hvs v (List.mem_of_mem_take (List.mem_reverse.mp hv))

theorem safe_peek (depth : Nat) (op : Opcode) :
    Step.Safe Execution.Filled (peek depth op) Variable.Filled := by
  unfold peek
  refine .bind safe_stack fun vs hvs => ?_
  cases depth with
  | zero => exact safe_underflow op
  | succ above =>
    dsimp only
    split
    case h_1 v hv => exact .pure (hvs v (List.mem_of_getElem? hv))
    case h_2 => exact safe_underflow op

theorem safe_replace (depth : Nat) {v : Variable} (hv : v.Filled) :
    Step.Safe Execution.Filled (replace depth v) fun _ => True :=
  safe_changeState fun _ h => ⟨h.locals, fun w hw =>
    (List.mem_or_eq_of_mem_set hw).elim (h.stack w) fun e => e ▸ hv⟩

theorem safe_locals :
    Step.Safe Execution.Filled (fromFrame (·.state.locals)) (NameMap.All Variable.Filled) :=
  safe_fromFrame fun _ h => h.state.locals

theorem safe_modifyLocals {change : NameMap Variable → NameMap Variable}
    (h : ∀ names : NameMap Variable, names.All Variable.Filled → (change names).All Variable.Filled) :
    Step.Safe Execution.Filled (modifyLocals change) fun _ => True :=
  safe_changeState fun _ hs => ⟨h _ hs.locals, hs.stack⟩

/-! ## Tables of names -/

theorem safe_scope (scope : ScopeId) :
    Step.Safe Execution.Filled (fromHeap (·.scopeAt scope)) (NameMap.All Variable.Filled) :=
  safe_fromHeap fun _ h => h.scopes scope

theorem safe_modifyScope {change : NameMap Variable → NameMap Variable} (scope : ScopeId)
    (h : ∀ names : NameMap Variable, names.All Variable.Filled → (change names).All Variable.Filled) :
    Step.Safe Execution.Filled (analysis (Analysis.modifyHeap (·.modifyScope scope change)))
      fun _ => True :=
  safe_analysis (Analysis.safe_withHeap fun _ hctx => ⟨hctx.modifyScope scope h, trivial⟩)

theorem safe_modifyGlobals {change : NameMap Variable → NameMap Variable}
    (h : ∀ names : NameMap Variable, names.All Variable.Filled → (change names).All Variable.Filled) :
    Step.Safe Execution.Filled (modifyGlobals change) fun _ => True :=
  .bind (safe_look _) fun globals _ => safe_modifyScope globals h

theorem safe_modifyCells {change : NameMap Variable → NameMap Variable}
    (h : ∀ names : NameMap Variable, names.All Variable.Filled → (change names).All Variable.Filled) :
    Step.Safe Execution.Filled (modifyCells change) fun _ => True :=
  .bind (safe_look _) fun cells _ => safe_modifyScope cells h

theorem safe_storeLocal (name : String) {v : Variable} (hv : v.Filled) :
    Step.Safe Execution.Filled (storeLocal name v) fun _ => True := by
  have locals : Step.Safe Execution.Filled (modifyLocals (·.insert name v)) fun _ => True :=
    safe_modifyLocals fun _ h => h.insert hv
  refine .bind (safe_look _) fun kind _ => .ite (fun _ => ?_) fun _ => locals
  exact .bind (safe_modifyGlobals fun _ h => h.insert hv) fun _ _ => locals

theorem safe_deleteLocal (name : String) :
    Step.Safe Execution.Filled (deleteLocal name) fun _ => True := by
  refine .bind (safe_modifyLocals fun _ h => h.erase) fun _ _ => ?_
  refine .bind (safe_look _) fun kind _ => .ite (fun _ => ?_) fun _ => .pure trivial
  exact safe_modifyGlobals fun _ h => h.erase

theorem safe_storeGlobal (name : String) {v : Variable} (hv : v.Filled) :
    Step.Safe Execution.Filled (storeGlobal name v) fun _ => True := by
  have globals : Step.Safe Execution.Filled (modifyGlobals (·.insert name v)) fun _ => True :=
    safe_modifyGlobals fun _ h => h.insert hv
  refine .bind (safe_look _) fun kind _ => .ite (fun _ => ?_) fun _ => globals
  exact .bind (safe_modifyLocals fun _ h => h.insert hv) fun _ _ => globals

/-! ## Names -/

theorem safe_unbound (name : String) :
    Step.Safe Execution.Filled (unbound name) Variable.Filled :=
  .bind (safe_analysis (Analysis.safe_record _)) fun _ _ => .pure (.var .any)

theorem safe_loadGlobal (name : String) :
    Step.Safe Execution.Filled (loadGlobal name) Variable.Filled := by
  unfold loadGlobal
  refine .bind (safe_look _) fun globals _ => .bind (safe_scope globals) fun names hnames => ?_
  split
  case h_1 v hv => exact .pure (hnames.get? hv)
  case h_2 =>
    split
    case h_1 a ha => exact .pure (.var (Builtins.filled_members.get? ha))
    case h_2 => exact safe_unbound name

theorem safe_loadFast (name : String) :
    Step.Safe Execution.Filled (loadFast name) Variable.Filled := by
  unfold loadFast
  refine .bind safe_locals fun names hnames => ?_
  split
  case h_1 v hv => exact .pure (hnames.get? hv)
  case h_2 => exact safe_unbound name

theorem safe_loadName (name : String) :
    Step.Safe Execution.Filled (loadName name) Variable.Filled := by
  unfold loadName
  refine .bind safe_locals fun names hnames => ?_
  split
  case h_1 v hv => exact .pure (hnames.get? hv)
  case h_2 => exact safe_loadGlobal name

theorem safe_loadDeref (name : String) :
    Step.Safe Execution.Filled (loadDeref name) Variable.Filled := by
  unfold loadDeref
  refine .bind .get fun s _ => .bind .get fun t ht => ?_
  dsimp only
  split
  case h_1 v hv =>
    obtain ⟨scope, -, hscope⟩ := List.exists_of_findSome?_eq_some hv
    exact .pure ((ht.2.scopes scope).get? hscope)
  case h_2 => exact safe_unbound name

theorem safe_ownCell? (name : String) :
    Step.Safe Execution.Filled (ownCell? name) fun found => ∀ v, found = some v → v.Filled :=
  .bind (safe_look _) fun cells _ =>
    .bind (safe_scope cells) fun _ hnames => .pure fun _ hv => hnames.get? hv

theorem safe_loadAttribute {object : Variable} (hobject : object.Filled) (name : String) :
    Step.Safe Execution.Filled (loadAttribute object name) Variable.Filled := by
  have load (values : List Value) (h : ∀ a ∈ values, a.Filled) :
      Step.Safe Execution.Filled (loadAttribute.load name values)
        fun answers => ∀ a ∈ answers, a.Filled := by
    induction values with
    | nil => exact .pure (List.forall_mem_nil _)
    | cons value rest ih =>
      obtain ⟨here, others⟩ := List.forall_mem_cons.mp h
      have answer (found : List Value) (hfound : ∀ a ∈ found, a.Filled) :
          Step.Safe Execution.Filled (do pure (found ++ (← loadAttribute.load name rest)))
            fun answers => ∀ a ∈ answers, a.Filled :=
        .bind (ih others) fun _ hanswers => .pure (List.forall_mem_append.mpr ⟨hfound, hanswers⟩)
      unfold loadAttribute.load
      refine .bind .get fun s hs => ?_
      dsimp only
      split
      case h_1 v hv => exact .bind (.pure (hs.2.attribute? here hv).values) answer
      case h_2 =>
        refine .bind (safe_analysis (Analysis.safe_record _)) fun _ _ => answer [.any] ?_
        exact List.forall_mem_singleton.mpr .any
  exact .bind (load _ hobject.values) fun _ hanswers => .pure (.ofValues hanswers)

/-! ## Edges -/

/-- States that do not fit together are the fault of the code. -/
theorem external_addPending {target : Nat} {state : BlockState} {pending : List (Nat × BlockState)}
    (fault : Fault) (h : addPending target state pending = .error fault) :
    fault.isInternal = false := by
  induction pending with
  | nil => cases h
  | cons entry rest ih =>
    obtain ⟨block, known⟩ := entry
    rw [addPending] at h
    split at h
    · unfold BlockState.merge at h
      split at h <;> cases h
      rfl
    · cases hrest : addPending target state rest with
      | error other =>
        rw [hrest] at h
        cases h
        exact ih hrest
      | ok entries =>
        rw [hrest] at h
        cases h

theorem safe_enter (target : Nat) {state : BlockState} (hstate : state.Filled) :
    Step.Safe Execution.Filled (enter target state) fun _ => True := by
  unfold enter
  refine .bind .get fun s hs => .ite (fun _ => ?_) fun _ => .pure trivial
  refine .ite (fun _ => .bind (Q := fun _ => False) (.throw rfl) fun _ h => h.elim) fun _ => ?_
  refine .bind (Q := fun pending => ∀ entry ∈ pending, entry.2.Filled)
    (.ofExcept external_addPending fun pending h => ?_) fun pending hpending => ?_
  · exact forall_addPending (P := fun _ state => state.Filled) hs.1.pending hstate
      (fun _ _ known hm => known.merge hstate hm) h
  · exact safe_modifyFrame fun _ hf => { hf with pending := hpending }

theorem safe_jump (target : Nat) : Step.Safe Execution.Filled (jump target) fun _ => True :=
  .bind (safe_fromFrame fun _ hf => hf.state) fun _ hstate => safe_enter target hstate

theorem safe_iterate (target : Nat) (op : Opcode) :
    Step.Safe Execution.Filled (iterate target op) fun _ => True := by
  unfold iterate
  refine .bind (Q := BlockState.Filled) (safe_fromFrame fun _ hf => hf.state) fun state hstate => ?_
  split
  case h_1 => exact safe_underflow op
  case h_2 rest hs =>
    have hrest : ∀ v ∈ rest, v.Filled := fun v hv => hstate.stack v (by simp [hs, hv])
    exact .bind (safe_enter target ⟨hstate.locals, hrest⟩) fun _ _ => safe_pushValue .any

theorem safe_takePending (block : Nat) :
    Step.Safe Execution.Filled (takePending block)
      fun found => ∀ state, found = some state → state.Filled := by
  unfold takePending
  refine .bind (Q := fun pending => ∀ entry ∈ pending, entry.2.Filled)
    (safe_fromFrame fun _ hf => hf.pending) fun pending hpending => ?_
  split
  case h_1 => exact .pure nofun
  case h_2 state hfound =>
    refine .bind (safe_modifyFrame fun _ hf => { hf with pending := fun entry hentry => ?_ })
      fun _ _ => .pure ?_
    · exact hpending entry (List.mem_of_mem_filter hentry)
    · rintro _ ⟨⟩
      exact hpending _ (List.mem_of_find?_eq_some hfound)

theorem safe_returnTop (op : Opcode) :
    Step.Safe Execution.Filled (returnTop op) fun _ => True := by
  refine .bind (safe_pop op) fun v hv => safe_modifyFrame fun _ hf => { hf with
    final := hf.final.joinLocals hf.state.locals
    returns := ?_ }
  exact List.forall_mem_append.mpr ⟨hf.returns, List.forall_mem_singleton.mpr hv⟩

/-! ## Functions and calls -/

theorem safe_constant (index : Nat) :
    Step.Safe Execution.Filled (constant index) fun _ => True :=
  .bind .get fun _ _ => safe_check (Code.literalAt_plain _ _ _) fun _ _ => trivial

theorem safe_popFlagged (flags bit : UInt8) (op : Opcode) :
    Step.Safe Execution.Filled (popFlagged flags bit op)
      fun found => ∀ v, found = some v → v.Filled := by
  refine .ite (fun _ => ?_) fun _ => .pure nofun
  rw [map_eq_pure_bind]
  refine .bind (safe_pop op) fun v hv => .pure ?_
  rintro _ ⟨⟩
  exact hv

/-- A panic is the fault of whoever wrote the code. -/
theorem safe_ofPanic {α : Type} (result : Except Panic α) :
    Step.Safe Execution.Filled (check (Fault.ofPanic result)) fun _ => True := by
  cases result with
  | error cause => exact .throw rfl
  | ok a => exact .pure trivial

theorem safe_functionOf {v : Variable} (hv : v.Filled) {defaults : List Variable}
    (hdefaults : ∀ w ∈ defaults, w.Filled) {kwDefaults : NameMap Variable}
    (hkw : kwDefaults.All Variable.Filled) :
    Step.Safe Execution.Filled (functionOf v defaults kwDefaults) Value.Filled := by
  unfold functionOf
  refine .bind (safe_check v.atomic_plain fun a ha => hv.atomic ha) fun a ha => ?_
  split
  case h_1 site code =>
    refine .bind (safe_ofPanic _) fun _ _ => .bind (safe_look _) fun around _ => ?_
    refine .bind (Q := fun _ => True) (safe_analysis
      (Analysis.safe_withHeap fun ctx hctx => ⟨hctx.addFunction ⟨?_, nofun⟩, trivial⟩)) fun id _ => ?_
    · exact Signature.all_ofCode hdefaults hkw
    · exact .bind (safe_modifyFrame fun _ hf => { hf with }) fun _ _ => .pure (.function id)
  case h_2 => exact .throw rfl

theorem safe_makeFunction (flags : UInt8) (op : Opcode) :
    Step.Safe Execution.Filled (makeFunction flags op) Value.Filled := by
  unfold makeFunction
  refine .bind (safe_pop op) fun codeVar hcode => .bind (safe_popFlagged flags 8 op) fun _ _ => ?_
  refine .bind (safe_popFlagged flags 4 op) fun _ _ =>
    .bind (safe_popFlagged flags 2 op) fun kwVar hkwVar => ?_
  refine .bind (Q := NameMap.All Variable.Filled) ?_ fun kwDefaults hkw => ?_
  · cases kwVar with
    | none =>
      exact safe_check (.ok _) fun names hnames => (by cases hnames; exact .nil)
    | some v =>
      exact safe_check (keywordDefaults_plain v) fun _ hnames => (hkwVar v rfl).keywordDefaults hnames
  refine .bind (safe_popFlagged flags 1 op) fun var hvar => ?_
  refine .bind (Q := fun vs => ∀ v ∈ vs, v.Filled) ?_
    fun defaults hdefaults => safe_functionOf hcode hdefaults hkw
  cases var with
  | none =>
    exact safe_check (.ok _) fun vs hvs => (by cases hvs; exact List.forall_mem_nil _)
  | some v =>
    exact safe_check (positionalDefaults_plain v) fun _ hvs => (hvar v rfl).positionalDefaults hvs

/-- Findings are made elsewhere from here on. -/
theorem safe_syncPosition : Step.Safe Execution.Filled syncPosition fun _ => True :=
  .bind .get fun _ _ => safe_analysis fun _ hctx => .of_ok rfl hctx trivial

theorem safe_callOn (hev : ev.Safe) {callee : Variable} (hcallee : callee.Filled) {args : Args}
    (hargs : args.Called) : Step.Safe Execution.Filled (callOn ev callee args) fun _ => True := by
  refine .bind .get fun s _ => ?_
  refine .bind (safe_analysis (callVariable_safe hev hcallee hargs)) fun result hresult => ?_
  refine .bind safe_syncPosition fun _ _ => .ite (fun _ => ?_) fun _ => safe_push hresult
  exact .bind (safe_modifyFrame fun _ hf => { hf with }) fun _ _ => safe_push hresult

theorem safe_expectNames (index : Nat) :
    Step.Safe Execution.Filled (expectNames index) fun _ => True := by
  unfold expectNames
  refine .bind (safe_constant index) fun l _ => ?_
  cases (Literal.Shape.list .str).read l with
  | error problem => exact .bind (Q := fun _ => False) (.throw rfl) fun _ h => h.elim
  | ok names =>
    refine .bind (Q := fun _ => True) (.pure trivial) fun names _ => .bind (safe_look _) fun _ _ => ?_
    exact .bind (safe_check (Operands.expectNames_plain _ _) fun _ _ => trivial) fun _ _ =>
      safe_modifyFrame fun _ hf => { hf with }

/-- A call carries the frame that it is made from. -/
theorem safe_callPlain (hev : ev.Safe) (count : Nat) (op : Opcode) :
    Step.Safe Execution.Filled (callPlain ev count op) fun _ => True := by
  unfold callPlain
  refine .bind (safe_popMany count op) fun values hvalues => ?_
  refine .bind (safe_pop op) fun upper hupper => .bind (safe_pop op) fun lower hlower => ?_
  -- which of the two entries is the callee, and with it the operands
  obtain ⟨callee, values', heq, hcallee, hvalues'⟩ : ∃ callee values',
      (if lower.holds .null then (upper, values) else (lower, upper :: values)) =
        (callee, values') ∧ callee.Filled ∧ ∀ v ∈ values', v.Filled := by
    split
    · exact ⟨upper, values, rfl, hupper, hvalues⟩
    · exact ⟨lower, upper :: values, rfl, hlower, List.forall_mem_cons.mpr ⟨hupper, hvalues⟩⟩
  rw [heq]
  refine .bind (safe_look _) fun operands _ => ?_
  refine .bind (safe_modifyFrame fun _ hf => { hf with }) fun _ _ => ?_
  exact .bind (safe_check (Operands.arguments_plain _ _) fun _ hargs =>
    Operands.called_arguments hvalues' hargs) fun _ hargs => safe_callOn hev hcallee hargs

theorem safe_callExpanded (hev : ev.Safe) (flags : UInt8) (op : Opcode) :
    Step.Safe Execution.Filled (callExpanded ev flags op) fun _ => True := by
  unfold callExpanded
  refine .bind (safe_popFlagged flags 1 op) fun starStar hstarStar => ?_
  refine .bind (safe_pop op) fun star hstar => .bind (safe_pop op) fun callee hcallee => ?_
  have finish : Step.Safe Execution.Filled
      (do
        let operands ← fromFrame (·.operands)
        let args ← check (operands.expanded star starStar)
        callOn ev callee args) fun _ => True := by
    refine .bind (safe_look _) fun operands _ => ?_
    exact .bind (safe_check (Operands.expanded_plain _ _ _) fun _ hargs =>
      Operands.called_expanded hstar hstarStar hargs) fun _ hargs => safe_callOn hev hcallee hargs
  refine .bind safe_stack fun vs hvs => ?_
  dsimp only
  split
  case h_1 lower rest =>
    obtain ⟨-, hrest⟩ := List.forall_mem_cons.mp hvs
    refine .ite (fun _ => ?_) fun _ => finish
    exact .bind (safe_changeState fun _ h => ⟨h.locals, hrest⟩) fun _ _ => finish
  case h_2 => exact finish

/-! ## Instructions -/

/-- Replacing an entry of the stack by a container made of it and of the top. -/
theorem safe_gather (depth : Nat) (op : Opcode) {combine : Variable → Variable → Value}
    (h : ∀ v w, v.Filled → w.Filled → (combine v w).Filled) :
    Step.Safe Execution.Filled (do
        let item ← pop op
        let list ← peek depth op
        replace depth (combine list item).var) fun _ => True :=
  .bind (safe_pop op) fun item hitem => .bind (safe_peek depth op) fun list hlist =>
    safe_replace depth (.var (h list item hlist hitem))

/-- The builder of classes is among the builtins. -/
theorem safe_loadBuildClass :
    Step.Safe Execution.Filled (perform ev .loadBuildClass) fun _ => True := by
  have found : Builtins.lookup? "__build_class__" = some (.function ⟨2⟩) := by rfl
  simp only [perform, found]
  exact safe_pushValue (.function _)

/-- Instructions are safe. -/
theorem perform_safe (hev : ev.Safe) (op : Opcode) :
    Step.Safe Execution.Filled (perform ev op) fun _ => True := by
  cases op with
  | nop | resume | precall | cache | copyFreeVars => exact .pure trivial
  | pushNull => exact safe_pushValue .null
  | popTop => exact .bind (safe_pop _) fun _ _ => .pure trivial
  | copy depth => exact .bind (safe_peek depth _) fun _ hv => safe_push hv
  | swap depth =>
    refine .bind (safe_peek 1 _) fun top htop => .bind (safe_peek depth _) fun other hother => ?_
    exact .bind (safe_replace depth htop) fun _ _ => safe_replace 1 hother
  | loadConst index => exact .bind (safe_constant index) fun l _ => safe_pushValue (.literal l)
  | loadName name => exact .bind (safe_loadName name) fun _ hv => safe_push hv
  | storeName name | storeFast name =>
    exact .bind (safe_pop _) fun _ hv => safe_storeLocal name hv
  | deleteName name | deleteFast name => exact safe_deleteLocal name
  | loadGlobal name withNull =>
    have load : Step.Safe Execution.Filled (do push (← FrameStep.loadGlobal name)) fun _ => True :=
      .bind (safe_loadGlobal name) fun _ hv => safe_push hv
    exact .ite (fun _ => .bind (safe_pushValue .null) fun _ _ => load) fun _ => load
  | storeGlobal name => exact .bind (safe_pop _) fun _ hv => safe_storeGlobal name hv
  | loadFast name => exact .bind (safe_loadFast name) fun _ hv => safe_push hv
  | makeCell name =>
    refine .bind safe_locals fun names hnames => ?_
    split
    case h_1 v hv => exact safe_modifyCells fun _ h => h.insert (hnames.get? hv)
    case h_2 => exact .pure trivial
  | loadClosure name =>
    refine .bind (safe_ownCell? name) fun found hfound => safe_push ?_
    cases found with
    | none => exact .var .any
    | some v => exact hfound v rfl
  | loadDeref name => exact .bind (safe_loadDeref name) fun _ hv => safe_push hv
  | storeDeref name =>
    exact .bind (safe_pop _) fun _ hv => safe_modifyCells fun _ h => h.insert hv
  | loadAttr name =>
    exact .bind (safe_pop _) fun _ hobject =>
      .bind (safe_loadAttribute hobject name) fun _ hv => safe_push hv
  | loadMethod name =>
    refine .bind (safe_pop _) fun _ hobject => .bind (safe_loadAttribute hobject name) fun _ hv => ?_
    exact .bind (safe_pushValue .null) fun _ _ => safe_push hv
  | storeAttr name =>
    refine .bind (safe_pop _) fun object _ => .bind (safe_pop _) fun v hv => ?_
    exact safe_analysis (Analysis.safe_withHeap fun _ hctx => ⟨hctx.setAttribute hv object, trivial⟩)
  | loadBuildClass => exact safe_loadBuildClass
  | buildTuple count =>
    exact .bind (safe_popMany count _) fun _ hvs => safe_pushValue (.tuple hvs)
  | buildList count => exact .bind (safe_popMany count _) fun _ hvs => safe_pushValue (.list hvs)
  | buildMap count =>
    exact .bind (safe_ofPanic _) fun size _ => .bind (safe_popMany size _) fun _ hvs =>
      safe_pushValue (.dict (Variable.Filled.pairUp hvs))
  | buildConstKeyMap count =>
    refine .bind (safe_pop _) fun keys _ => .bind (safe_popMany count _) fun vs hvs => ?_
    exact .bind (safe_check (keyedBy_plain _ _) fun _ ha => Variable.Filled.keyedBy hvs ha)
      fun _ ha => safe_pushValue ha
  | listAppend depth => exact safe_gather depth _ fun _ _ hv hw => hv.appended hw
  | listExtend depth => exact safe_gather depth _ fun _ _ hv hw => hv.extended hw
  | listToTuple => exact .bind (safe_pop _) fun _ hv => safe_pushValue hv.tupleOf
  | dictMerge depth | dictUpdate depth => exact safe_gather depth _ fun _ _ hv hw => hv.combined hw
  | makeFunction flags => exact .bind (safe_makeFunction flags _) fun _ ha => safe_pushValue ha
  | kwNames index => exact safe_expectNames index
  | call count => exact safe_callPlain hev count _
  | callFunctionEx flags => exact safe_callExpanded hev flags _
  | binaryOp _ =>
    refine .bind (safe_pop _) fun right _ => .bind (safe_pop _) fun left _ => ?_
    exact .bind (safe_fromHeap fun ctx _ => Variable.Filled.binaryResults ctx.heap left right)
      fun _ hv => safe_push hv
  | compareOp _ | isOp _ | containsOp _ =>
    exact .bind (safe_popMany 2 _) fun _ _ => safe_pushValue (.frozen _)
  | unaryNot => exact .bind (safe_pop _) fun _ _ => safe_pushValue (.frozen _)
  | unaryNegative =>
    exact .bind (safe_pop _) fun _ _ => safe_push (Variable.Filled.negationResults _)
  | getIter => exact .bind (safe_pop _) fun _ _ => safe_pushValue .any
  | forIter target => exact safe_iterate target _
  | popJumpIfFalse target | popJumpIfTrue target | popJumpIfNone target
  | popJumpIfNotNone target => exact .bind (safe_pop _) fun _ _ => safe_jump target
  | importName _ => exact .bind (safe_popMany 2 _) fun _ _ => safe_pushValue .any
  | importFrom _ => exact .bind (safe_peek 1 _) fun _ _ => safe_pushValue .any
  | returnValue => exact safe_returnTop _
  | jumpForward target | jumpBackward target => exact safe_jump target
  | raiseVarargs count => exact .bind (safe_popMany count _) fun _ _ => .pure trivial

/-! ## Blocks -/

theorem runInstructions_safe (hev : ev.Safe) (instructions : List Instruction) :
    Step.Safe Execution.Filled (runInstructions ev instructions) fun _ => True := by
  induction instructions with
  | nil => exact .pure trivial
  | cons instruction rest ih =>
    refine .bind (safe_modifyFrame fun _ hf => { hf with }) fun _ _ => ?_
    refine .bind safe_syncPosition fun _ _ => ?_
    have execute : Step.Safe Execution.Filled (execute ev instruction.opcode) fun _ => True :=
      .bind (perform_safe hev _) fun _ _ => .pure trivial
    refine .bind execute fun flow _ => ?_
    cases flow with
    | stop => exact .pure trivial
    | next => exact ih

theorem runBlock_safe (hev : ev.Safe) (index : Nat) (block : Block) (isLast : Bool) :
    Step.Safe Execution.Filled (runBlock ev index block isLast) fun _ => True := by
  refine .bind (safe_takePending index) fun found hfound => ?_
  cases found with
  | none => exact .pure trivial
  | some state =>
    refine .bind (safe_modifyFrame fun _ hf => { hf with state := hfound state rfl }) fun _ _ => ?_
    refine .bind (runInstructions_safe hev block) fun flow _ => ?_
    exact .ite (fun _ => safe_jump _) fun _ => .pure trivial

theorem runBlocks_safe (hev : ev.Safe) (index : Nat) (blocks : List Block) :
    Step.Safe Execution.Filled (runBlocks ev index blocks) fun _ => True := by
  induction blocks generalizing index with
  | nil => exact .pure trivial
  | cons block rest ih => exact .bind (runBlock_safe hev index block _) fun _ _ => ih (index + 1)

/-- A frame that has not run may run. -/
theorem runAll_leads (hev : ev.Safe) {s : Execution} (hs : s.Filled)
    (fresh : s.frame.finished = false) :
    Step.Leads Execution.Filled (runAll ev) (fun _ => True) s := by
  have blocks : Step.Safe Execution.Filled (do
      modifyFrame fun frame => { frame with pending := startPending frame }
      runBlocks ev 0 s.frame.code.blocks
      modifyFrame fun frame => { frame with finished := true }) fun _ => True := by
    refine .bind (safe_modifyFrame fun frame hf => { hf with pending := ?_ }) fun _ _ => ?_
    · refine List.forall_mem_cons.mpr ⟨⟨hf.initial, List.forall_mem_nil _⟩, ?_⟩
      exact fun entry hentry => hf.pending entry (List.mem_of_mem_filter hentry)
    · exact .bind (runBlocks_safe hev 0 _) fun _ _ => safe_modifyFrame fun _ hf => { hf with }
  refine .read (a := s) rfl ?_
  simp only [fresh, Bool.false_eq_true, if_false]
  exact blocks s hs

end FrameStep

/-! ## Whole frames -/

variable {ev : Evaluator}

/-- A new frame with filled locals runs, and is filled at the end. -/
theorem Frame.runToEnd_safe (hev : ev.Safe) {start : Frame} (hstart : start.Filled)
    (fresh : start.finished = false) :
    Step.Safe Context.Filled (start.runToEnd ev) Frame.Filled := by
  intro ctx hctx
  have leads := FrameStep.runAll_leads hev (s := ⟨start, ctx⟩) ⟨hstart, hctx⟩ fresh
  have kept := leads.kept
  rcases run : FrameStep.runAll ev ⟨start, ctx⟩ with ⟨fault | _, t⟩
  · rw [run] at kept
    refine .of_error (t := t.context) ?_ kept.2 (leads.faults fault (by rw [run]))
    rw [Frame.runToEnd, Step.bind_apply, Frame.run, run]
    rfl
  · rw [run] at kept
    refine .of_ok (t := t.context) ?_ kept.2 kept.1
    rw [Frame.runToEnd, Step.bind_apply, Frame.run, run]
    rfl

theorem Analysis.running_safe {α : Type} (id : FunctionId) {m : Analysis α} {Q : α → Prop}
    (h : Step.Safe Context.Filled m Q) : Step.Safe Context.Filled (running id m) Q := fun ctx hctx =>
  have here := h { ctx with callStack := id :: ctx.callStack } hctx
  ⟨here.kept, here.answer, here.faults⟩

/-- A new table of names. -/
theorem addScope_safe {names : NameMap Variable} (h : names.All Variable.Filled) :
    Step.Safe Context.Filled (Analysis.withHeap (·.addScope names)) fun _ => True :=
  Analysis.safe_withHeap fun _ hctx => ⟨hctx.addScope h, trivial⟩

theorem addFrame_safe {frame : Frame} (h : frame.Filled) :
    Step.Safe Context.Filled (Analysis.withHeap (·.addFrame frame)) fun _ => True :=
  Analysis.safe_withHeap fun _ hctx => ⟨hctx.addFrame h, trivial⟩

/-- A body in a frame of its own. -/
theorem Evaluator.runIn_safe (hev : ev.Safe) (id : FunctionId) (function : InterpretedFunction)
    {locals : NameMap Variable} (h : locals.All Variable.Filled) :
    Step.Safe Context.Filled (runIn ev id function locals) fun _ => True := by
  unfold runIn Frame.forCall
  simp only [bind_assoc, pure_bind]
  refine .bind (addScope_safe .nil) fun cells _ => ?_
  refine .bind (Analysis.running_safe id (Frame.runToEnd_safe hev (Frame.filled_start h) rfl))
    fun frame hframe => addFrame_safe hframe

/-- Bodies are safe at any depth. -/
theorem Evaluator.atDepth_safe (depth : Nat) : (atDepth depth).Safe := by
  induction depth with
  | zero => exact ⟨fun _ _ _ _ => .throw rfl, fun _ _ _ _ => .throw rfl, fun _ _ _ _ => .throw rfl⟩
  | succ depth ih =>
    exact ⟨fun id function _ h => runIn_safe ih id function h,
      fun id function _ h => runIn_safe ih id function h,
      fun _ _ hcallee hargs => callValue_safe ih hargs hcallee⟩

/-- The frame of a module runs and is filled at the end. -/
theorem Frame.forModule_safe (hev : ev.Safe) (code : Code) (site : CodeSite) :
    Step.Safe Context.Filled (do (← Frame.forModule code site).runToEnd ev) Frame.Filled := by
  have globals : (Builtins.moduleGlobals.mapValues Value.var).All Variable.Filled :=
    Builtins.filled_moduleGlobals.mapValues fun _ ha => .var ha
  unfold Frame.forModule Frame.withGlobals
  simp only [bind_assoc, pure_bind]
  refine .bind (addScope_safe globals) fun scope _ => .bind (addScope_safe .nil) fun cells _ => ?_
  exact Frame.runToEnd_safe hev (Frame.filled_start globals) rfl

end StubInference
