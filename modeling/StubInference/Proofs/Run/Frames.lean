import StubInference.Interpreter
import StubInference.Proofs.Frame.Effect
import StubInference.Proofs.Frame.Joins
import StubInference.Proofs.Run.Calls

/-!
# Frames under agreeing evaluators

A frame within a confinement stays there, whatever its code does, and runs the same under two
evaluators that agree on the calls it makes.

## Main definitions

* `Frame.Confined` — a frame within a confinement
* `Confinement.Within` — the same together with the state of the analysis

## Main results

* `FrameStep.perform_agree` — one instruction
* `FrameStep.runAll_agree`, `Frame.runToEnd_agree` — a whole frame
-/

namespace StubInference

open Step

/-- Every variable of a block state is confined. -/
structure BlockState.Confined (P : CodeSite → Code → Prop) (state : BlockState) : Prop where
  locals : NameMap.Confined P state.locals
  stack : ∀ v ∈ state.stack, v.Confined P

theorem BlockState.Confined.merge {P : CodeSite → Code → Prop} {here there merged : BlockState}
    (hhere : here.Confined P) (hthere : there.Confined P) (h : here.merge there = .ok merged) :
    merged.Confined P := by
  unfold BlockState.merge at h
  split at h
  · cases h
    refine ⟨hhere.locals.mergeLocals hthere.locals, fun v hv => ?_⟩
    rw [← List.map_uncurry_zip_eq_zipWith] at hv
    obtain ⟨⟨a, b⟩, hab, rfl⟩ := List.mem_map.mp hv
    obtain ⟨ha, hb⟩ := List.of_mem_zip hab
    exact (hhere.stack a ha).mergeWith (hthere.stack b hb)
  · cases h

/-- An instruction of a frame of that kind binds or unbinds a name in its globals. -/
def Opcode.BindsGlobal (kind : FrameKind) (name : String) (op : Opcode) : Prop :=
  op = .storeGlobal name ∨
    kind = .module ∧ (op.storedName? = some name ∨ op.deletedName? = some name)

/-- An instruction binds a name in the cells of its frame. -/
def Opcode.BindsCell (name : String) (op : Opcode) : Prop :=
  op = .makeCell name ∨ op = .storeDeref name

/-- What a frame has from its start on: constants that hold code that may run, and globals that
functions may know. Its own code need not be code that may run once more. -/
structure Frame.Admitted (K : Confinement) (start : Frame) : Prop where
  constants : ∀ {index : Nat} {literal : Literal},
    start.code.literalAt start.site index = .ok literal → literal.Confined K.code
  globals : K.isGlobals start.globals

/-- An instruction of a frame leaves the kept entries of its tables alone. -/
structure Frame.Spares (K : Confinement) (start : Frame) (op : Opcode) : Prop where
  globals : ∀ name, op.BindsGlobal start.kind name → ¬ K.kept start.globals name
  cells : ∀ name, op.BindsCell name → ¬ K.kept start.cells name

/-- A frame runs code that may run, and nothing is kept in the tables that it writes to freely: its
cells, and its globals in a module. -/
structure Frame.Apart (K : Confinement) (start : Frame) : Prop where
  code : K.code start.site start.code
  cells : ∀ name, ¬ K.kept start.cells name
  module : start.kind = .module → ∀ name, ¬ K.kept start.globals name

/-- A frame on its way from the given start, within a confinement. -/
structure Frame.Confined (K : Confinement) (start frame : Frame) : Prop where
  admitted : start.Admitted K
  site : frame.site = start.site
  code : frame.code = start.code
  kind : frame.kind = start.kind
  globals : frame.globals = start.globals
  cells : frame.cells = start.cells
  caller : K.isGlobals frame.operands.frame.globals
  initial : NameMap.Confined K.code frame.initialLocals
  state : frame.state.Confined K.code
  pending : ∀ entry ∈ frame.pending, entry.2.Confined K.code
  final : NameMap.Confined K.code frame.finalLocals
  returns : ∀ v ∈ frame.returns, v.Confined K.code

/-- A frame and the state of the analysis within a confinement. -/
abbrev Confinement.Within (K : Confinement) (start : Frame) (stack : List FunctionId) :
    Execution → Prop :=
  FrameStep.Both (Frame.Confined K start) (K.Holds stack)

namespace FrameStep

variable {K : Confinement} {start : Frame} {stack : List FunctionId} {ev ev' : Evaluator}
  {op : Opcode}

/-! ## Locals and stack -/

theorem agree_changeState {change : BlockState → BlockState}
    (h : ∀ state, state.Confined K.code → (change state).Confined K.code) :
    Step.Agree (K.Within start stack) (modifyState change) (modifyState change) fun _ => True :=
  agree_modifyState fun frame hframe => { hframe with state := h frame.state hframe.state }

theorem agree_push {v : Variable} (hv : v.Confined K.code) :
    Step.Agree (K.Within start stack) (push v) (push v) fun _ => True :=
  agree_changeState fun _ h => ⟨h.locals, List.forall_mem_cons.mpr ⟨hv, h.stack⟩⟩

theorem agree_pushValue {a : Value} (ha : a.Confined K.code) :
    Step.Agree (K.Within start stack) (pushValue a) (pushValue a) fun _ => True :=
  .bind (Q := fun _ => True) (agree_fromFrame fun _ _ => trivial) fun line _ =>
    agree_push (.ofValueAt ha (.line line))

theorem agree_underflow {α : Type} (op : Opcode) {Q : α → Prop} :
    Step.Agree (K.Within start stack) (underflow op) (underflow op) Q :=
  .bind (Q := fun _ => True) (agree_fromFrame fun _ _ => trivial) fun _ _ => .throw _

theorem agree_stack : Step.Agree (K.Within start stack) FrameStep.stack FrameStep.stack
    fun vs => ∀ v ∈ vs, v.Confined K.code :=
  agree_fromFrame fun _ h => h.state.stack

theorem agree_pop (op : Opcode) :
    Step.Agree (K.Within start stack) (pop op) (pop op) (Variable.Confined K.code) := by
  unfold pop
  refine .bind agree_stack fun vs hvs => ?_
  cases vs with
  | nil => exact agree_underflow op
  | cons top rest =>
    simp only [List.forall_mem_cons] at hvs
    exact .bind (agree_changeState fun _ h => ⟨h.locals, hvs.2⟩) fun _ _ => .pure hvs.1

theorem agree_popMany (count : Nat) (op : Opcode) :
    Step.Agree (K.Within start stack) (popMany count op) (popMany count op)
      fun vs => ∀ v ∈ vs, v.Confined K.code := by
  unfold popMany
  refine .bind agree_stack fun vs hvs => .ite (fun _ => ?_) fun _ => ?_
  · exact .bind (Q := fun _ => False) (agree_underflow op) fun _ h => h.elim
  · refine .bind (agree_changeState fun _ h => ⟨h.locals, fun v hv => ?_⟩) fun _ _ => .pure ?_
    · exact hvs v (List.mem_of_mem_drop hv)
    · exact fun v hv => hvs v (List.mem_of_mem_take (List.mem_reverse.mp hv))

theorem agree_peek (depth : Nat) (op : Opcode) :
    Step.Agree (K.Within start stack) (peek depth op) (peek depth op)
      (Variable.Confined K.code) := by
  unfold peek
  refine .bind agree_stack fun vs hvs => ?_
  cases depth with
  | zero => exact agree_underflow op
  | succ above =>
    dsimp only
    split
    case h_1 v hv => exact .pure (hvs v (List.mem_of_getElem? hv))
    case h_2 => exact agree_underflow op

theorem agree_replace (depth : Nat) {v : Variable} (hv : v.Confined K.code) :
    Step.Agree (K.Within start stack) (replace depth v) (replace depth v) fun _ => True :=
  agree_changeState fun _ h => ⟨h.locals, fun w hw =>
    (List.mem_or_eq_of_mem_set hw).elim (h.stack w) fun e => e ▸ hv⟩

theorem agree_locals : Step.Agree (K.Within start stack) (fromFrame (·.state.locals))
    (fromFrame (·.state.locals)) (NameMap.Confined K.code) :=
  agree_fromFrame fun _ h => h.state.locals

theorem agree_modifyLocals {change : NameMap Variable → NameMap Variable}
    (h : ∀ names, NameMap.Confined K.code names → NameMap.Confined K.code (change names)) :
    Step.Agree (K.Within start stack) (modifyLocals change) (modifyLocals change)
      fun _ => True :=
  agree_changeState fun _ hs => ⟨h _ hs.locals, hs.stack⟩

/-! ## Tables of names -/

theorem agree_scope (scope : ScopeId) : Step.Agree (K.Within start stack)
    (fromHeap (·.scopeAt scope)) (fromHeap (·.scopeAt scope)) (NameMap.Confined K.code) :=
  agree_fromHeap fun _ h => h.heap.scopes scope

/-- A table is changed where nothing is kept. -/
theorem agree_modifyScope {change : NameMap Variable → NameMap Variable} {scope : ScopeId}
    (h : ∀ names, NameMap.Confined K.code names → NameMap.Confined K.code (change names))
    (hkept : ∀ names name, K.kept scope name → (change names).get? name = names.get? name) :
    Step.Agree (K.Within start stack) (analysis (Analysis.modifyHeap (·.modifyScope scope change)))
      (analysis (Analysis.modifyHeap (·.modifyScope scope change))) fun _ => True :=
  agree_analysis (Analysis.agree_modifyHeap fun _ hctx => hctx.modifyScope h hkept)

/-- A name is bound in the cells where it is not kept. -/
theorem agree_insertCell {name : String} {v : Variable} (hv : v.Confined K.code)
    (hname : ¬ K.kept start.cells name) :
    Step.Agree (K.Within start stack) (modifyCells (·.insert name v))
      (modifyCells (·.insert name v)) fun _ => True := by
  refine .bind (Q := fun cells => cells = start.cells) (agree_fromFrame fun _ hf => hf.cells)
    fun cells hcells => agree_modifyScope (fun _ h => h.insert hv) fun names other hkept => ?_
  have hne : name ≠ other := fun e => hname (e ▸ hcells ▸ hkept)
  exact NameMap.get?_insert_of_ne names v hne

theorem agree_modifyGlobals {change : NameMap Variable → NameMap Variable}
    (h : ∀ names, NameMap.Confined K.code names → NameMap.Confined K.code (change names))
    (hkept : ∀ names name, K.kept start.globals name → (change names).get? name = names.get? name) :
    Step.Agree (K.Within start stack) (modifyGlobals change) (modifyGlobals change)
      fun _ => True :=
  .bind (Q := fun globals => globals = start.globals) (agree_fromFrame fun _ hf => hf.globals)
    fun _ hglobals => agree_modifyScope h (hglobals ▸ hkept)

theorem agree_kind : Step.Agree (K.Within start stack) (fromFrame (·.kind)) (fromFrame (·.kind))
    fun kind => kind = start.kind :=
  agree_fromFrame fun _ hf => hf.kind

/-- A name is bound in the globals where it is not kept. -/
theorem agree_insertGlobal {name : String} {v : Variable} (hv : v.Confined K.code)
    (hname : ¬ K.kept start.globals name) :
    Step.Agree (K.Within start stack) (modifyGlobals (·.insert name v))
      (modifyGlobals (·.insert name v)) fun _ => True := by
  refine agree_modifyGlobals (fun _ h => h.insert hv) fun names other hkept => ?_
  have hne : name ≠ other := fun e => hname (e ▸ hkept)
  exact NameMap.get?_insert_of_ne names v hne

theorem agree_storeLocal {name : String} {v : Variable} (hv : v.Confined K.code)
    (hname : start.kind = .module → ¬ K.kept start.globals name) :
    Step.Agree (K.Within start stack) (storeLocal name v) (storeLocal name v) fun _ => True := by
  unfold storeLocal
  have locals : Step.Agree (K.Within start stack) (modifyLocals (·.insert name v))
      (modifyLocals (·.insert name v)) fun _ => True := agree_modifyLocals fun _ h => h.insert hv
  refine .bind agree_kind fun kind hkind => .ite (fun hmodule => ?_) fun _ => locals
  exact .bind (agree_insertGlobal hv (hname (hkind ▸ hmodule))) fun _ _ => locals

theorem agree_deleteLocal {name : String}
    (hname : start.kind = .module → ¬ K.kept start.globals name) :
    Step.Agree (K.Within start stack) (deleteLocal name) (deleteLocal name) fun _ => True := by
  unfold deleteLocal
  refine .bind (agree_modifyLocals fun _ h => h.erase) fun _ _ => ?_
  refine .bind agree_kind fun kind hkind => .ite (fun hmodule => ?_) fun _ => .pure trivial
  refine agree_modifyGlobals (fun _ h => h.erase) fun names other hkept => ?_
  have hne : name ≠ other := fun e => hname (hkind ▸ hmodule) (e ▸ hkept)
  exact NameMap.get?_erase_of_ne names hne

/-- Code that stores a global name leaves the entries of that name to everybody. -/
theorem agree_storeGlobal {name : String} {v : Variable} (hv : v.Confined K.code)
    (hname : ¬ K.kept start.globals name) :
    Step.Agree (K.Within start stack) (storeGlobal name v) (storeGlobal name v) fun _ => True := by
  unfold storeGlobal
  have globals : Step.Agree (K.Within start stack) (modifyGlobals (·.insert name v))
      (modifyGlobals (·.insert name v)) fun _ => True := agree_insertGlobal hv hname
  refine .bind agree_kind fun kind _ => .ite (fun _ => ?_) fun _ => globals
  exact .bind (agree_modifyLocals fun _ h => h.insert hv) fun _ _ => globals

/-! ## Names -/

theorem agree_unbound (name : String) :
    Step.Agree (K.Within start stack) (unbound name) (unbound name)
      (Variable.Confined K.code) :=
  .bind (agree_analysis (Analysis.agree_record _)) fun _ _ => .pure (.var .any)

theorem agree_loadGlobal (name : String) :
    Step.Agree (K.Within start stack) (loadGlobal name) (loadGlobal name)
      (Variable.Confined K.code) := by
  unfold loadGlobal
  refine .bind (Q := fun _ => True) (agree_fromFrame fun _ _ => trivial) fun globals _ => ?_
  refine .bind (agree_scope globals) fun names hnames => ?_
  split
  case h_1 v hv => exact .pure (hnames.get? hv)
  case h_2 =>
    split
    case h_1 a ha => exact .pure (.var (Builtins.confined_lookup? ha))
    case h_2 => exact agree_unbound name

theorem agree_loadFast (name : String) :
    Step.Agree (K.Within start stack) (loadFast name) (loadFast name)
      (Variable.Confined K.code) := by
  unfold loadFast
  refine .bind agree_locals fun names hnames => ?_
  split
  case h_1 v hv => exact .pure (hnames.get? hv)
  case h_2 => exact agree_unbound name

theorem agree_loadName (name : String) :
    Step.Agree (K.Within start stack) (loadName name) (loadName name)
      (Variable.Confined K.code) := by
  unfold loadName
  refine .bind agree_locals fun names hnames => ?_
  split
  case h_1 v hv => exact .pure (hnames.get? hv)
  case h_2 => exact agree_loadGlobal name

theorem agree_loadDeref (name : String) :
    Step.Agree (K.Within start stack) (loadDeref name) (loadDeref name)
      (Variable.Confined K.code) := by
  unfold loadDeref
  refine .bind .get fun s _ => .bind .get fun t ht => ?_
  dsimp only
  split
  case h_1 v hv =>
    obtain ⟨scope, -, hscope⟩ := List.exists_of_findSome?_eq_some hv
    exact .pure ((ht.2.heap.scopes scope).get? hscope)
  case h_2 => exact agree_unbound name

theorem agree_ownCell? (name : String) :
    Step.Agree (K.Within start stack) (ownCell? name) (ownCell? name)
      fun found => ∀ v, found = some v → v.Confined K.code := by
  unfold ownCell?
  refine .bind (Q := fun _ => True) (agree_fromFrame fun _ _ => trivial) fun cells _ => ?_
  exact .bind (agree_scope cells) fun names hnames => .pure fun v hv => hnames.get? hv

theorem agree_loadAttribute {object : Variable} (hobject : object.Confined K.code)
    (name : String) :
    Step.Agree (K.Within start stack) (loadAttribute object name) (loadAttribute object name)
      (Variable.Confined K.code) := by
  have load : ∀ values : List Value, (∀ a ∈ values, a.Confined K.code) →
      Step.Agree (K.Within start stack) (loadAttribute.load name values)
        (loadAttribute.load name values) fun answers => ∀ a ∈ answers, a.Confined K.code := by
    intro values
    induction values with
    | nil => exact fun _ => .pure (by simp)
    | cons value rest ih =>
      intro h
      simp only [List.forall_mem_cons] at h
      have answer : ∀ values : List Value, (∀ a ∈ values, a.Confined K.code) →
          Step.Agree (K.Within start stack)
            (do pure (values ++ (← loadAttribute.load name rest)))
            (do pure (values ++ (← loadAttribute.load name rest)))
            fun answers => ∀ a ∈ answers, a.Confined K.code := fun values hvalues =>
        .bind (ih h.2) fun answers hanswers =>
          .pure (List.forall_mem_append.mpr ⟨hvalues, hanswers⟩)
      unfold loadAttribute.load
      refine .bind .get fun s hs => ?_
      dsimp only
      split
      case h_1 v hv =>
        exact .bind (.pure (hs.2.heap.attribute? h.1 hv).values) fun values => answer values
      case h_2 =>
        refine .bind (agree_analysis (Analysis.agree_record _)) fun _ _ => ?_
        exact answer [.any] (by simpa using Value.Confined.any)
  exact .bind (load _ hobject.values) fun answers hanswers => .pure (.ofValues hanswers)

/-! ## Edges -/

theorem agree_enter (target : Nat) {state : BlockState} (hstate : state.Confined K.code) :
    Step.Agree (K.Within start stack) (enter target state) (enter target state) fun _ => True := by
  unfold enter
  refine .bind .get fun s hs => .ite (fun _ => ?_) fun _ => .pure trivial
  refine .ite (fun _ => .bind (Q := fun _ => False) (.throw _) fun _ h => h.elim) fun _ => ?_
  refine .bind (Q := fun pending => ∀ entry ∈ pending, entry.2.Confined K.code)
    (agree_check fun pending h => ?_) fun pending hpending => ?_
  · exact forall_addPending (P := fun _ state => state.Confined K.code) hs.1.pending hstate
      (fun _ _ known hm => known.merge hstate hm) h
  · exact agree_modifyFrame fun _ hf => { hf with pending := hpending }

theorem agree_jump (target : Nat) :
    Step.Agree (K.Within start stack) (jump target) (jump target) fun _ => True :=
  .bind (agree_fromFrame fun _ hf => hf.state) fun _ hstate => agree_enter target hstate

theorem agree_iterate (target : Nat) (op : Opcode) :
    Step.Agree (K.Within start stack) (iterate target op) (iterate target op) fun _ => True := by
  unfold iterate
  refine .bind (Q := BlockState.Confined K.code) (agree_fromFrame fun _ hf => hf.state)
    fun state hstate => ?_
  split
  case h_1 => exact agree_underflow op
  case h_2 rest hs =>
    have hrest : ∀ v ∈ rest, v.Confined K.code := fun v hv => hstate.stack v (by simp [hs, hv])
    exact .bind (agree_enter target ⟨hstate.locals, hrest⟩) fun _ _ => agree_pushValue .any

theorem agree_takePending (block : Nat) :
    Step.Agree (K.Within start stack) (takePending block) (takePending block)
      fun found => ∀ state, found = some state → state.Confined K.code := by
  unfold takePending
  refine .bind (Q := fun pending => ∀ entry ∈ pending, entry.2.Confined K.code)
    (agree_fromFrame fun _ hf => hf.pending) fun pending hpending => ?_
  split
  case h_1 => exact .pure (by simp)
  case h_2 state hfound =>
    refine .bind (agree_modifyFrame fun _ hf => { hf with pending := fun entry hentry => ?_ })
      fun _ _ => .pure ?_
    · exact hpending entry (List.mem_of_mem_filter hentry)
    · intro other hother
      cases hother
      exact hpending _ (List.mem_of_find?_eq_some hfound)

theorem agree_returnTop (op : Opcode) :
    Step.Agree (K.Within start stack) (returnTop op) (returnTop op) fun _ => True := by
  unfold returnTop
  refine .bind (agree_pop op) fun v hv => agree_modifyFrame fun _ hf => { hf with
    final := hf.final.mergeLocals hf.state.locals
    returns := ?_ }
  exact List.forall_mem_append.mpr ⟨hf.returns, by simpa using hv⟩

/-! ## Functions and calls -/

theorem agree_constant (index : Nat) :
    Step.Agree (K.Within start stack) (constant index) (constant index)
      (Literal.Confined K.code) := by
  unfold constant
  refine .bind .get fun s hs => agree_check fun l hl => ?_
  rw [hs.1.code, hs.1.site] at hl
  exact hs.1.admitted.constants hl

theorem agree_popFlagged (flags bit : UInt8) (op : Opcode) :
    Step.Agree (K.Within start stack) (popFlagged flags bit op) (popFlagged flags bit op)
      fun found => ∀ v, found = some v → v.Confined K.code := by
  refine .ite (fun _ => ?_) fun _ => .pure (by simp)
  rw [map_eq_pure_bind]
  exact .bind (agree_pop op) fun v hv => .pure fun w hw => (by cases hw; exact hv)

/-- The globals of a new function are those of the frame. -/
theorem agree_functionOf {v : Variable} (hv : v.Confined K.code) {defaults : List Variable}
    (hdefaults : ∀ w ∈ defaults, w.Confined K.code) {kwDefaults : NameMap Variable}
    (hkw : NameMap.Confined K.code kwDefaults) :
    Step.Agree (K.Within start stack) (functionOf v defaults kwDefaults)
      (functionOf v defaults kwDefaults) (Value.Confined K.code) := by
  unfold functionOf
  refine .bind (agree_check fun a ha => hv.atomic ha) fun a ha => ?_
  split
  case h_1 site code =>
    have hcode : K.code site code := ha.literal.code
    refine .bind (Q := fun _ => True) (agree_check fun _ _ => trivial) fun _ _ => ?_
    refine .bind (Q := fun around => K.isGlobals around.globals)
      (agree_fromFrame fun _ hf => hf.caller) fun around hglobals => ?_
    refine .bind (Q := fun _ => True) (agree_analysis (Analysis.agree_withHeap fun ctx hctx => ?_))
      fun id _ => ?_
    · refine ⟨hctx.withHeap (hctx.heap.addFunction ⟨?_, ?_, ?_⟩) rfl, trivial⟩
      · exact Signature.confined_ofCode hdefaults hkw
      · intro function hfunction
        cases hfunction
        exact ⟨hcode, hglobals⟩
      · intro function hfunction
        cases hfunction
    · exact .bind (agree_modifyFrame fun _ hf => { hf with }) fun _ _ => .pure (.function id)
  case h_2 => exact .throw _

theorem agree_makeFunction (flags : UInt8) (op : Opcode) :
    Step.Agree (K.Within start stack) (makeFunction flags op) (makeFunction flags op)
      (Value.Confined K.code) := by
  unfold makeFunction
  refine .bind (agree_pop op) fun codeVar hcode => ?_
  refine .bind (agree_popFlagged flags 8 op) fun _ _ => ?_
  refine .bind (agree_popFlagged flags 4 op) fun _ _ => ?_
  refine .bind (agree_popFlagged flags 2 op) fun kwVar hkwVar => ?_
  refine .bind (Q := NameMap.Confined K.code) (agree_check fun names hnames => ?_)
    fun kwDefaults hkw => ?_
  · cases kwVar with
    | none =>
      cases hnames
      exact .nil
    | some v => exact (hkwVar v rfl).keywordDefaults hnames
  refine .bind (agree_popFlagged flags 1 op) fun var hvar => ?_
  refine .bind (Q := fun vs => ∀ v ∈ vs, v.Confined K.code) (agree_check fun vs hvs => ?_)
    fun defaults hdefaults => agree_functionOf hcode hdefaults hkw
  cases var with
  | none =>
    cases hvs
    simp
  | some v => exact (hvar v rfl).positionalDefaults hvs

/-- Findings are made elsewhere from here on. -/
theorem agree_syncPosition :
    Step.Agree (K.Within start stack) syncPosition syncPosition fun _ => True :=
  .bind .get fun _ _ => agree_analysis (.modify (fun ctx hctx => hctx.record ctx.log _) trivial)

theorem agree_callOn (hev : Evaluator.Agree K stack ev ev') {callee : Variable}
    (hcallee : callee.Confined K.code) {args : Args} (hargs : args.Confined K.code K.isGlobals) :
    Step.Agree (K.Within start stack) (callOn ev callee args) (callOn ev' callee args)
      fun _ => True := by
  unfold callOn
  refine .bind .get fun s _ => ?_
  refine .bind (agree_analysis (callVariable_agree hev hcallee hargs)) fun result hresult => ?_
  refine .bind agree_syncPosition fun _ _ => .ite (fun _ => ?_) fun _ => agree_push hresult
  exact .bind (agree_modifyFrame fun _ hf => { hf with }) fun _ _ => agree_push hresult

theorem agree_operands : Step.Agree (K.Within start stack) (fromFrame (·.operands))
    (fromFrame (·.operands)) fun operands => K.isGlobals operands.frame.globals :=
  agree_fromFrame fun _ hf => hf.caller

theorem agree_expectNames (index : Nat) :
    Step.Agree (K.Within start stack) (expectNames index) (expectNames index) fun _ => True := by
  unfold expectNames
  refine .bind (agree_constant index) fun l _ => ?_
  cases (Literal.Shape.list .str).read l with
  | error problem => exact .bind (Q := fun _ => False) (.throw _) fun _ h => h.elim
  | ok names =>
    refine .bind (Q := fun _ => True) (.pure trivial) fun names _ => ?_
    refine .bind agree_operands fun operands hoperands => ?_
    refine .bind (Q := fun operands => K.isGlobals operands.frame.globals)
      (agree_check fun after hafter => ?_) fun after hafter => ?_
    · unfold Operands.expectNames at hafter
      split at hafter
      · cases hafter
      · cases hafter
        exact hoperands
    · exact agree_modifyFrame fun _ hf => { hf with caller := hafter }

theorem agree_callPlain (hev : Evaluator.Agree K stack ev ev') (count : Nat) (op : Opcode) :
    Step.Agree (K.Within start stack) (callPlain ev count op) (callPlain ev' count op)
      fun _ => True := by
  unfold callPlain
  refine .bind (agree_popMany count op) fun values hvalues => ?_
  refine .bind (agree_pop op) fun upper hupper => .bind (agree_pop op) fun lower hlower => ?_
  -- which of the two entries is the callee, and with it the operands
  obtain ⟨callee, values', heq, hcallee, hvalues'⟩ : ∃ callee values',
      (if lower.holds .null then (upper, values) else (lower, upper :: values)) =
        (callee, values') ∧ callee.Confined K.code ∧ ∀ v ∈ values', v.Confined K.code := by
    split
    · exact ⟨upper, values, rfl, hupper, hvalues⟩
    · exact ⟨lower, upper :: values, rfl, hlower, List.forall_mem_cons.mpr ⟨hupper, hvalues⟩⟩
  rw [heq]
  refine .bind agree_operands fun operands hoperands => ?_
  refine .bind (agree_modifyFrame fun _ hf => { hf with caller := hf.caller }) fun _ _ => ?_
  refine .bind (agree_check fun args hargs => Operands.confined_arguments hoperands hvalues' hargs)
    fun args hargs => agree_callOn hev hcallee hargs

theorem agree_callExpanded (hev : Evaluator.Agree K stack ev ev') (flags : UInt8) (op : Opcode) :
    Step.Agree (K.Within start stack) (callExpanded ev flags op) (callExpanded ev' flags op)
      fun _ => True := by
  unfold callExpanded
  refine .bind (agree_popFlagged flags 1 op) fun starStar hstarStar => ?_
  refine .bind (agree_pop op) fun star hstar => .bind (agree_pop op) fun callee hcallee => ?_
  have finish : Step.Agree (K.Within start stack)
      (do
        let operands ← fromFrame (·.operands)
        let args ← check (operands.expanded star starStar)
        callOn ev callee args)
      (do
        let operands ← fromFrame (·.operands)
        let args ← check (operands.expanded star starStar)
        callOn ev' callee args) fun _ => True := by
    refine .bind agree_operands fun operands hoperands => ?_
    refine .bind (agree_check fun args hargs =>
      Operands.confined_expanded hoperands hstar hstarStar hargs) fun args hargs => ?_
    exact agree_callOn hev hcallee hargs
  refine .bind agree_stack fun vs hvs => ?_
  dsimp only
  split
  case h_1 lower rest =>
    simp only [List.forall_mem_cons] at hvs
    refine .ite (fun _ => ?_) fun _ => finish
    exact .bind (agree_changeState fun _ h => ⟨h.locals, hvs.2⟩) fun _ _ => finish
  case h_2 => exact finish

/-! ## Instructions -/

theorem agree_swap (depth : Nat) (op : Opcode) :
    Step.Agree (K.Within start stack) (do
        let top ← peek 1 op
        let other ← peek depth op
        replace depth top
        replace 1 other)
      (do
        let top ← peek 1 op
        let other ← peek depth op
        replace depth top
        replace 1 other) fun _ => True := by
  refine .bind (agree_peek 1 op) fun top htop => .bind (agree_peek depth op) fun other hother => ?_
  exact .bind (agree_replace depth htop) fun _ _ => agree_replace 1 hother

/-- Replacing an entry of the stack by a container made of it and of the top. -/
theorem agree_gather (depth : Nat) (op : Opcode) {combine : Variable → Variable → Value}
    (h : ∀ v w, v.Confined K.code → w.Confined K.code → (combine v w).Confined K.code) :
    Step.Agree (K.Within start stack) (do
        let item ← pop op
        let list ← peek depth op
        replace depth (combine list item).var)
      (do
        let item ← pop op
        let list ← peek depth op
        replace depth (combine list item).var) fun _ => True := by
  refine .bind (agree_pop op) fun item hitem => .bind (agree_peek depth op) fun list hlist => ?_
  exact agree_replace depth (.var (h list item hlist hitem))

/-- One instruction, where it spares what is kept. -/
theorem perform_agree (hev : Evaluator.Agree K stack ev ev') (spares : start.Spares K op) :
    Step.Agree (K.Within start stack) (perform ev op) (perform ev' op) fun _ => True := by
  -- an instruction is a sequence of steps that agree; only stores may meet what is kept
  cases op with
  | nop | resume | precall | cache | copyFreeVars => exact .pure trivial
  | pushNull => exact agree_pushValue .null
  | popTop => exact .bind (agree_pop _) fun _ _ => .pure trivial
  | copy depth => exact .bind (agree_peek depth _) fun _ hv => agree_push hv
  | swap depth => exact agree_swap depth _
  | loadConst index =>
    exact .bind (agree_constant index) fun _ hl => agree_pushValue (.of_literal hl)
  | loadName name => exact .bind (agree_loadName name) fun _ hv => agree_push hv
  | storeName name | storeFast name =>
    exact .bind (agree_pop _) fun _ hv => agree_storeLocal hv fun module =>
      spares.globals name (.inr ⟨module, .inl rfl⟩)
  | deleteName name | deleteFast name =>
    exact agree_deleteLocal fun module => spares.globals name (.inr ⟨module, .inr rfl⟩)
  | loadGlobal name withNull =>
    have load : Step.Agree (K.Within start stack) (do push (← FrameStep.loadGlobal name))
        (do push (← FrameStep.loadGlobal name)) fun _ => True :=
      .bind (agree_loadGlobal name) fun _ hv => agree_push hv
    exact .ite (fun _ => .bind (agree_pushValue .null) fun _ _ => load) fun _ => load
  | storeGlobal name =>
    exact .bind (agree_pop _) fun _ hv => agree_storeGlobal hv
      (spares.globals name (.inl rfl))
  | loadFast name => exact .bind (agree_loadFast name) fun _ hv => agree_push hv
  | makeCell name =>
    refine .bind agree_locals fun names hnames => ?_
    split
    case h_1 v hv =>
      exact agree_insertCell (hnames.get? hv) (spares.cells name (.inl rfl))
    case h_2 => exact .pure trivial
  | loadClosure name =>
    refine .bind (agree_ownCell? name) fun found hfound => agree_push ?_
    cases found with
    | none => exact .var .any
    | some v => exact hfound v rfl
  | loadDeref name => exact .bind (agree_loadDeref name) fun _ hv => agree_push hv
  | storeDeref name =>
    exact .bind (agree_pop _) fun _ hv =>
      agree_insertCell hv (spares.cells name (.inr rfl))
  | loadAttr name =>
    refine .bind (agree_pop _) fun _ hobject => ?_
    exact .bind (agree_loadAttribute hobject name) fun _ hv => agree_push hv
  | loadMethod name =>
    refine .bind (agree_pop _) fun _ hobject => ?_
    refine .bind (agree_loadAttribute hobject name) fun _ hv => ?_
    exact .bind (agree_pushValue .null) fun _ _ => agree_push hv
  | storeAttr name =>
    refine .bind (agree_pop _) fun object _ => .bind (agree_pop _) fun v hv => ?_
    refine agree_analysis (Analysis.agree_modifyHeap fun ctx hctx => ?_)
    exact hctx.withHeap (hctx.heap.setAttribute hv object) (Heap.scopes_setAttribute ..)
  | loadBuildClass =>
    simp only [perform]
    split
    case h_1 a ha => exact agree_pushValue (Builtins.confined_lookup? ha)
    case h_2 => exact .throw _
  | buildTuple count =>
    exact .bind (agree_popMany count _) fun vs hvs =>
      agree_pushValue (.tuple fun _ h => (by cases h; exact hvs))
  | buildList count =>
    exact .bind (agree_popMany count _) fun vs hvs =>
      agree_pushValue (.list fun _ h => (by cases h; exact hvs))
  | buildMap count =>
    refine .bind (Q := fun _ => True) (agree_check fun _ _ => trivial) fun size _ => ?_
    exact .bind (agree_popMany size _) fun vs hvs =>
      agree_pushValue (.dict fun _ h => (by cases h; exact Variable.Confined.pairUp hvs))
  | buildConstKeyMap count =>
    refine .bind (agree_pop _) fun keys hkeys => .bind (agree_popMany count _) fun vs hvs => ?_
    exact .bind (agree_check fun a ha => hkeys.keyedBy hvs ha) fun _ ha => agree_pushValue ha
  | listAppend depth => exact agree_gather depth _ fun _ _ hv hw => hv.appended hw
  | listExtend depth => exact agree_gather depth _ fun _ _ hv hw => hv.extended hw
  | listToTuple => exact .bind (agree_pop _) fun _ hv => agree_pushValue hv.tupleOf
  | dictMerge depth | dictUpdate depth => exact agree_gather depth _ fun _ _ hv hw => hv.combined hw
  | makeFunction flags =>
    exact .bind (agree_makeFunction flags _) fun _ ha => agree_pushValue ha
  | kwNames index => exact agree_expectNames index
  | call count => exact agree_callPlain hev count _
  | callFunctionEx flags => exact agree_callExpanded hev flags _
  | binaryOp _ =>
    refine .bind (agree_pop _) fun right _ => .bind (agree_pop _) fun left _ => ?_
    exact .bind (agree_fromHeap fun ctx _ => Variable.Confined.binaryResults ctx.heap left right)
      fun _ hv => agree_push hv
  | compareOp _ | isOp _ | containsOp _ =>
    exact .bind (agree_popMany 2 _) fun _ _ => agree_pushValue (.frozen _)
  | unaryNot => exact .bind (agree_pop _) fun _ _ => agree_pushValue (.frozen _)
  | unaryNegative =>
    exact .bind (agree_pop _) fun _ _ => agree_push (Variable.Confined.negationResults _)
  | getIter => exact .bind (agree_pop _) fun _ _ => agree_pushValue .any
  | forIter target => exact agree_iterate target _
  | popJumpIfFalse target | popJumpIfTrue target | popJumpIfNone target
  | popJumpIfNotNone target => exact .bind (agree_pop _) fun _ _ => agree_jump target
  | importName _ => exact .bind (agree_popMany 2 _) fun _ _ => agree_pushValue .any
  | importFrom _ => exact .bind (agree_peek 1 _) fun _ _ => agree_pushValue .any
  | returnValue => exact agree_returnTop _
  | jumpForward target | jumpBackward target => exact agree_jump target
  | raiseVarargs count => exact .bind (agree_popMany count _) fun _ _ => .pure trivial

/-! ## Blocks -/

/-- The instructions of a list spare what is kept. -/
def Spares (K : Confinement) (start : Frame) (instructions : List Instruction) : Prop :=
  ∀ instruction ∈ instructions, start.Spares K instruction.opcode

theorem runInstructions_agree (hev : Evaluator.Agree K stack ev ev')
    {instructions : List Instruction} (spares : Spares K start instructions) :
    Step.Agree (K.Within start stack) (runInstructions ev instructions)
      (runInstructions ev' instructions) fun _ => True := by
  induction instructions with
  | nil => exact .pure trivial
  | cons instruction rest ih =>
    simp only [Spares, List.forall_mem_cons] at spares
    unfold runInstructions
    refine .bind (agree_modifyFrame fun _ hf => { hf with }) fun _ _ => ?_
    refine .bind agree_syncPosition fun _ _ => ?_
    have execute : Step.Agree (K.Within start stack) (execute ev instruction.opcode)
        (FrameStep.execute ev' instruction.opcode) fun _ => True :=
      .bind (perform_agree hev spares.1) fun _ _ => .pure trivial
    refine .bind execute fun flow _ => ?_
    cases flow with
    | stop => exact .pure trivial
    | next => exact ih spares.2

theorem runBlock_agree (hev : Evaluator.Agree K stack ev ev') (index : Nat) {block : Block}
    (spares : Spares K start block) (isLast : Bool) :
    Step.Agree (K.Within start stack) (runBlock ev index block isLast)
      (runBlock ev' index block isLast) fun _ => True := by
  unfold runBlock
  refine .bind (agree_takePending index) fun found hfound => ?_
  cases found with
  | none => exact .pure trivial
  | some state =>
    refine .bind (agree_modifyFrame fun _ hf => { hf with state := hfound state rfl })
      fun _ _ => ?_
    refine .bind (runInstructions_agree hev spares) fun flow _ => ?_
    exact .ite (fun _ => agree_jump _) fun _ => .pure trivial

theorem runBlocks_agree (hev : Evaluator.Agree K stack ev ev') (index : Nat) {blocks : List Block}
    (spares : ∀ block ∈ blocks, Spares K start block) :
    Step.Agree (K.Within start stack) (runBlocks ev index blocks) (runBlocks ev' index blocks)
      fun _ => True := by
  induction blocks generalizing index with
  | nil => exact .pure trivial
  | cons block rest ih =>
    simp only [List.forall_mem_cons] at spares
    exact .bind (runBlock_agree hev index spares.1 _) fun _ _ => ih (index + 1) spares.2

/-- Code that stores a global name leaves the entries of that name to everybody. -/
theorem spares_of_apart (admitted : start.Admitted K) (apart : start.Apart K) :
    ∀ block ∈ start.code.blocks, Spares K start block := by
  intro block hblock instruction hinstruction
  refine ⟨fun name hbinds => ?_, fun name _ => apart.cells name⟩
  rcases hbinds with hop | ⟨module, -⟩
  · exact K.apart _ _ _ _ apart.code admitted.globals
      ⟨block, hblock, instruction, hinstruction, hop⟩
  · exact apart.module module name

theorem runAll_agree (hev : Evaluator.Agree K stack ev ev') (apart : start.Apart K) :
    Step.Agree (K.Within start stack) (runAll ev) (runAll ev') fun _ => True := by
  unfold runAll
  refine .bind .get fun s hs => ?_
  have blocks : Step.Agree (K.Within start stack)
      (do
        modifyFrame fun frame => { frame with pending := startPending frame }
        runBlocks ev 0 s.frame.code.blocks
        modifyFrame fun frame => { frame with finished := true })
      (do
        modifyFrame fun frame => { frame with pending := startPending frame }
        runBlocks ev' 0 s.frame.code.blocks
        modifyFrame fun frame => { frame with finished := true }) fun _ => True := by
    refine .bind (agree_modifyFrame fun frame hf => { hf with pending := ?_ }) fun _ _ => ?_
    · refine List.forall_mem_cons.mpr ⟨⟨hf.initial, by simp [BlockState.ofLocals]⟩, ?_⟩
      exact fun entry hentry => hf.pending entry (List.mem_of_mem_filter hentry)
    · rw [hs.1.code]
      exact .bind (runBlocks_agree hev 0 (spares_of_apart hs.1.admitted apart)) fun _ _ =>
        agree_modifyFrame fun _ hf => { hf with }
  exact .ite (fun _ => .bind (Q := fun _ => False) (.throw _) fun _ h => h.elim) fun _ => blocks

end FrameStep

/-! ## Whole frames -/

/-- A step that runs with a function on the call stack leaves the stack as it was. -/
theorem Analysis.running_agree {α : Type} {K : Confinement} {stack : List FunctionId}
    (id : FunctionId) {m n : Analysis α} {Q : α → Prop}
    (h : Step.Agree (K.Holds (id :: stack)) m n Q) :
    Step.Agree (K.Holds stack) (running id m) (running id n) Q := by
  intro ctx hctx
  have hpushed : K.Holds (id :: stack) { ctx with callStack := id :: ctx.callStack } :=
    ⟨hctx.heap, hctx.options, congrArg (id :: ·) hctx.callStack, hctx.base, hctx.kept⟩
  obtain ⟨heq, hI, hQ⟩ := h _ hpushed
  refine ⟨?_, ⟨hI.heap, hI.options, ?_, hI.base, hI.kept⟩, hQ⟩
  · unfold running
    dsimp only
    rw [heq]
  · change List.tail _ = _
    rw [hI.callStack]
    rfl

section Frames

variable {K : Confinement} {start : Frame} {stack : List FunctionId} {ev ev' : Evaluator}

/-- A frame that runs to its end is confined there. -/
theorem Frame.runToEnd_agree (hev : Evaluator.Agree K stack ev ev') (h : start.Confined K start)
    (apart : start.Apart K) :
    Step.Agree (K.Holds stack) (start.runToEnd ev) (start.runToEnd ev') (Frame.Confined K start) := by
  intro ctx hctx
  obtain ⟨heq, hI, -⟩ := FrameStep.runAll_agree hev apart ⟨start, ctx⟩ ⟨h, hctx⟩
  have hrun (ev : Evaluator) : start.runToEnd ev ctx = match FrameStep.runAll ev ⟨start, ctx⟩ with
      | (.ok _, ⟨frame, context⟩) => (.ok frame, context)
      | (.error fault, ⟨_, context⟩) => (.error fault, context) := by
    rw [Frame.runToEnd, Step.bind_apply]
    unfold Frame.run
    rcases FrameStep.runAll ev ⟨start, ctx⟩ with ⟨_ | _, _⟩ <;> rfl
  rw [hrun, hrun, heq]
  rcases hr : FrameStep.runAll ev' ⟨start, ctx⟩ with ⟨_ | _, t⟩
  · rw [hr] at hI
    exact ⟨rfl, hI.2, fun _ hb => (by cases hb)⟩
  · rw [hr] at hI
    refine ⟨rfl, hI.2, fun done hdone => ?_⟩
    cases hdone
    exact hI.1

theorem Frame.Confined.gathered {frame : Frame} (h : Frame.Confined K start frame)
    (apart : start.Apart K) : frame.Gathered K.code where
  code := by
    rw [h.site, h.code]
    exact apart.code
  final := h.final
  returns := h.returns

/-- A frame that has only been given its locals. -/
theorem Frame.confined_start {name : String} {kind : FrameKind} {code : Code} {site : CodeSite}
    {function : Option FunctionId} {globals cells : ScopeId} {enclosing : List ScopeId}
    {locals : NameMap Variable}
    (admitted : (Frame.start name kind code site function globals enclosing cells locals).Admitted K)
    (hlocals : NameMap.Confined K.code locals) :
    (Frame.start name kind code site function globals enclosing cells locals).Confined K
      (Frame.start name kind code site function globals enclosing cells locals) where
  admitted := admitted
  site := rfl
  code := rfl
  kind := rfl
  globals := rfl
  cells := rfl
  caller := admitted.globals
  initial := hlocals
  state := ⟨.nil, by simp [Frame.start]⟩
  pending := by simp [Frame.start]
  final := .nil
  returns := by simp [Frame.start]

/-- The cells of a new frame come behind everything that is kept. -/
theorem Frame.forCall_agree (id : FunctionId) {function : InterpretedFunction}
    {locals : NameMap Variable} (hcode : K.code function.site function.code)
    (hglobals : K.isGlobals function.surroundings.globals)
    (hlocals : NameMap.Confined K.code locals) :
    Step.Agree (K.Holds stack) (Frame.forCall id function locals) (Frame.forCall id function locals)
      fun frame => frame.Confined K frame ∧ frame.Apart K := by
  unfold Frame.forCall
  refine .bind (Q := fun cells => ∀ name, ¬ K.kept cells name) (Analysis.agree_withHeap
    fun ctx hctx => ⟨hctx.addScope .nil, fun name hkept => ?_⟩) fun cells hcells => .pure ?_
  · have hlt := K.bounded _ _ hkept
    have hbase := hctx.base
    simp only [Heap.addScope] at hlt
    omega
  · exact ⟨Frame.confined_start ⟨K.constants hcode, hglobals⟩ hlocals, hcode, hcells,
      fun h => (by cases h)⟩

/-- A body in a frame of its own, with its function on the call stack. -/
theorem Evaluator.runIn_agree {id : FunctionId} {function : InterpretedFunction}
    {locals : NameMap Variable} (hev : Evaluator.Agree K (id :: stack) ev ev')
    (hcode : K.code function.site function.code)
    (hglobals : K.isGlobals function.surroundings.globals)
    (hlocals : NameMap.Confined K.code locals) :
    Step.Agree (K.Holds stack) (Evaluator.runIn ev id function locals)
      (Evaluator.runIn ev' id function locals) fun _ => True := by
  unfold Evaluator.runIn
  refine .bind (Frame.forCall_agree id hcode hglobals hlocals) fun start hstart => ?_
  refine .bind (Q := Frame.Confined K start) ?_ fun frame hframe => ?_
  · exact Analysis.running_agree id (Frame.runToEnd_agree hev hstart.1 hstart.2)
  · refine Analysis.agree_withHeap fun ctx hctx => ⟨hctx.withHeap ?_ rfl, trivial⟩
    exact hctx.heap.addFrame (hframe.gathered hstart.2)

end Frames

/-- An evaluator agrees with itself. -/
theorem Evaluator.agree_atDepth (K : Confinement) (depth : Nat) (stack : List FunctionId) :
    Evaluator.Agree K stack (atDepth depth) (atDepth depth) := by
  induction depth generalizing stack with
  | zero => exact ⟨fun _ _ _ _ _ _ _ => .throw _, fun _ _ _ _ _ _ => .throw _,
      fun _ _ _ _ _ _ => .throw _⟩
  | succ depth ih =>
    exact ⟨fun id _ _ hcode hglobals hlocals _ => runIn_agree (ih (id :: stack)) hcode hglobals hlocals,
      fun id _ _ hcode hglobals hlocals => runIn_agree (ih (id :: stack)) hcode hglobals hlocals,
      fun hook _ _ _ hargs hpositional => callHook_agree (ih stack).body hook hargs hpositional⟩

end StubInference
