import StubInference.Interpreter
import StubInference.Proofs.Renaming.Calls

/-!
# Frames on matching states

A frame runs the same on matching states, up to the renaming, when calls do. The evaluators of the
interpreter are stacked on one that refuses, so every one of them does the same.

## Main definitions

* `Execution.Grows`, `Execution.Matches` — running frames
* `Renaming.executions` — the states that instructions work on

## Main results

* `FrameStep.perform_mirrors` — one instruction
* `Frame.runToEnd_mirrors` — a whole frame
* `Evaluator.atDepth_mirrors` — the evaluators of the interpreter
-/

namespace StubInference

open Step

variable {E : Renaming}

/-! ## Running frames -/

/-- While a frame runs it stays the frame of its function with the locals it began with, and the
functions that it creates are interpreted. -/
structure Execution.Grows (s t : Execution) : Prop where
  context : s.context.Grows t.context
  function : t.frame.function = s.frame.function
  initialLocals : t.frame.initialLocals = s.frame.initialLocals
  functions : ∀ id ∈ t.frame.functions,
    id ∈ s.frame.functions ∨ t.context.heap.isInterpreted id = true

/-- The same frame on matching states. -/
structure Execution.Matches (E : Renaming) (s t : Execution) : Prop where
  frame : t.frame = s.frame.rename E
  context : s.context.Matches E t.context

namespace Execution.Grows

variable {s t u : Execution}

theorem refl (s : Execution) : s.Grows s := ⟨.refl _, rfl, rfl, fun _ h => .inl h⟩

theorem trans (h : s.Grows t) (h' : t.Grows u) : s.Grows u where
  context := h.context.trans h'.context
  function := h'.function.trans h.function
  initialLocals := h'.initialLocals.trans h.initialLocals
  functions id hid := by
    rcases h'.functions id hid with hid | hid
    · exact (h.functions id hid).imp_right h'.context.heap.isInterpreted
    · exact .inr hid

/-- A change of the frame beside what it is and what it created. -/
theorem frame (s : Execution) {frame : Frame} (function : frame.function = s.frame.function)
    (initialLocals : frame.initialLocals = s.frame.initialLocals)
    (functions : frame.functions = s.frame.functions) : s.Grows ⟨frame, s.context⟩ :=
  ⟨.refl _, function, initialLocals, fun _ h => .inl (functions ▸ h)⟩

end Execution.Grows

/-- The states that instructions work on. -/
def Renaming.executions (E : Renaming) : World Execution where
  Grows := Execution.Grows
  refl := .refl
  trans := .trans
  Matches := Execution.Matches E
  Admits s := E.Admits s.context.heap
  admits_of_grows grows admits := admits.mono grows.context.heap.sizeLE

namespace FrameStep

variable {α β : Type} {e : α → β} {s : Execution} {ev : Evaluator} {op : Opcode}

theorem mirrors_analysis {m : Analysis α} {n : Analysis β}
    (h : Step.Mirrors E.contexts s.context m n e) :
    Step.Mirrors E.executions s (analysis m) (analysis n) e where
  grows := ⟨h.grows, rfl, rfl, fun _ h => .inl h⟩
  follows _ ht admits := by
    obtain ⟨matched, answer⟩ := h.follows _ ht.context admits
    exact ⟨⟨ht.frame, matched⟩, answer⟩

theorem mirrors_check {result : Except Fault α} {result' : Except Fault β}
    (h : result' = result.map e) : Step.Mirrors E.executions s (check result) (check result') e :=
  .ofExcept h

theorem mirrors_fromFrame {read : Frame → α} {read' : Frame → β}
    (h : read' (s.frame.rename E) = e (read s.frame)) :
    Step.Mirrors E.executions s (fromFrame read) (fromFrame read') e where
  grows := .refl s
  follows _ ht _ := ⟨ht, congrArg Except.ok (ht.frame ▸ h)⟩

theorem mirrors_fromHeap {read : Heap → α} {read' : Heap → β}
    (h : ∀ heap', s.context.heap.Matches E heap' → read' heap' = e (read s.context.heap)) :
    Step.Mirrors E.executions s (fromHeap read) (fromHeap read') e where
  grows := .refl s
  follows _ ht _ := ⟨ht, congrArg Except.ok (h _ ht.context.heap)⟩

theorem mirrors_modifyFrame {change change' : Frame → Frame}
    (grows : s.Grows ⟨change s.frame, s.context⟩)
    (h : change' (s.frame.rename E) = (change s.frame).rename E) :
    Step.Mirrors E.executions s (modifyFrame change) (modifyFrame change') id where
  grows := grows
  follows _ ht _ := ⟨⟨(congrArg change' ht.frame).trans h, ht.context⟩, rfl⟩

theorem mirrors_modifyState {change change' : BlockState → BlockState}
    (h : change' (s.frame.state.rename E) = (change s.frame.state).rename E) :
    Step.Mirrors E.executions s (modifyState change) (modifyState change') id :=
  mirrors_modifyFrame (.frame s rfl rfl rfl) (by simp only [Frame.rename, h])

theorem mirrors_modifyLocals {change change' : NameMap Variable → NameMap Variable}
    (h : ∀ names : NameMap Variable, change' (names.mapValues (Variable.rename E)) =
      (change names).mapValues (Variable.rename E)) :
    Step.Mirrors E.executions s (modifyLocals change) (modifyLocals change') id :=
  mirrors_modifyState (by simp only [BlockState.rename, h])

theorem mirrors_modifyScope {change change' : NameMap Variable → NameMap Variable}
    (h : ∀ names : NameMap Variable, change' (names.mapValues (Variable.rename E)) =
      (change names).mapValues (Variable.rename E)) (scope : ScopeId) :
    Step.Mirrors E.executions s (analysis (Analysis.modifyHeap (·.modifyScope scope change)))
      (analysis (Analysis.modifyHeap (·.modifyScope (E.scope scope) change'))) id :=
  mirrors_analysis (Analysis.mirrors_modifyHeap (.single (.modifyScope scope change))
    fun _ hheap => hheap.modifyScope h scope)

theorem mirrors_modifyGlobals {change change' : NameMap Variable → NameMap Variable}
    (h : ∀ names : NameMap Variable, change' (names.mapValues (Variable.rename E)) =
      (change names).mapValues (Variable.rename E)) :
    Step.Mirrors E.executions s (modifyGlobals change) (modifyGlobals change') id :=
  .bind (mirrors_fromFrame rfl) fun scope _ _ => mirrors_modifyScope h scope

theorem mirrors_modifyCells {change change' : NameMap Variable → NameMap Variable}
    (h : ∀ names : NameMap Variable, change' (names.mapValues (Variable.rename E)) =
      (change names).mapValues (Variable.rename E)) :
    Step.Mirrors E.executions s (modifyCells change) (modifyCells change') id :=
  .bind (mirrors_fromFrame rfl) fun scope _ _ => mirrors_modifyScope h scope

theorem mirrors_syncPosition : Step.Mirrors E.executions s syncPosition syncPosition id := by
  unfold syncPosition
  apply Mirrors.read
  · intro t ht
    simp only [ht.frame, Frame.rename_name, Frame.rename_line]
    rfl
  · exact mirrors_analysis (.modify ⟨.refl _, rfl, rfl⟩
      fun _ ht _ => ⟨ht.heap, ht.options, ht.callStack⟩)

/-! ## The operand stack -/

theorem mirrors_push (v : Variable) :
    Step.Mirrors E.executions s (push v) (push (v.rename E)) id := mirrors_modifyState rfl

theorem mirrors_pushValue (a : Value) :
    Step.Mirrors E.executions s (pushValue a) (pushValue (a.rename E)) id :=
  .bind (e := id) (mirrors_fromFrame rfl) fun _ _ _ => mirrors_push _

/-- A value without objects but builtins. -/
theorem mirrors_pushBuiltin {a : Value} (builtin : a.rename E = a) :
    Step.Mirrors E.executions s (pushValue a) (pushValue a) id := by
  have pushed := mirrors_pushValue (E := E) (s := s) a
  rwa [builtin] at pushed

theorem mirrors_underflow (op : Opcode) :
    Step.Mirrors E.executions s (underflow op : FrameStep α) (underflow op : FrameStep β) e :=
  .bind (e := id) (mirrors_fromFrame rfl) fun _ _ _ => .throw _

theorem mirrors_stack :
    Step.Mirrors E.executions s stack stack (List.map (Variable.rename E)) := mirrors_fromFrame rfl

theorem mirrors_pop (op : Opcode) :
    Step.Mirrors E.executions s (pop op) (pop op) (Variable.rename E) := by
  unfold pop
  refine .bind mirrors_stack fun vs _ _ => ?_
  cases vs with
  | nil => exact mirrors_underflow op
  | cons top rest =>
    exact .bind (mirrors_modifyState rfl) fun _ _ _ => .pure rfl

theorem mirrors_popMany (count : Nat) (op : Opcode) :
    Step.Mirrors E.executions s (popMany count op) (popMany count op)
      (List.map (Variable.rename E)) := by
  unfold popMany
  refine .bind mirrors_stack fun vs _ _ => .ite (by rw [List.length_map]) (fun _ => ?_) fun _ => ?_
  · exact .bind (e := id) (mirrors_underflow op) fun _ _ h => (by cases h)
  · refine .bind (mirrors_modifyState ?_) fun _ _ _ => .pure ?_
    · simp [BlockState.rename, List.map_drop]
    · simp [List.map_take]

theorem mirrors_peek (depth : Nat) (op : Opcode) :
    Step.Mirrors E.executions s (peek depth op) (peek depth op) (Variable.rename E) := by
  unfold peek
  refine .bind mirrors_stack fun vs _ _ => ?_
  cases depth with
  | zero => exact mirrors_underflow op
  | succ above =>
    simp only [List.getElem?_map]
    cases vs[above]? with
    | none => exact mirrors_underflow op
    | some v => exact .pure rfl

theorem mirrors_replace (depth : Nat) (v : Variable) :
    Step.Mirrors E.executions s (replace depth v) (replace depth (v.rename E)) id :=
  mirrors_modifyState (by simp [BlockState.rename, List.map_set])

/-! ## Names -/

theorem mirrors_unbound (name : String) :
    Step.Mirrors E.executions s (unbound name) (unbound name) (Variable.rename E) :=
  .bind (mirrors_analysis (Analysis.mirrors_record _)) fun _ _ _ => .pure rfl

theorem mirrors_locals : Step.Mirrors E.executions s (fromFrame (·.state.locals))
    (fromFrame (·.state.locals)) fun names => names.mapValues (Variable.rename E) :=
  mirrors_fromFrame rfl

theorem mirrors_scope (scope : ScopeId) : Step.Mirrors E.executions s
    (fromHeap (·.scopeAt scope)) (fromHeap (·.scopeAt (E.scope scope)))
      fun names => names.mapValues (Variable.rename E) :=
  mirrors_fromHeap fun _ h => h.scopeAt scope

theorem mirrors_storeLocal (name : String) (v : Variable) :
    Step.Mirrors E.executions s (storeLocal name v) (storeLocal name (v.rename E)) id := by
  unfold storeLocal
  have locals (t : Execution) : Step.Mirrors E.executions t (modifyLocals (·.insert name v))
      (modifyLocals (·.insert name (v.rename E))) id :=
    mirrors_modifyLocals fun _ => (NameMap.mapValues_insert v).symm
  refine .bind (e := id) (mirrors_fromFrame rfl) fun kind t _ =>
    .ite Iff.rfl (fun _ => ?_) fun _ => locals t
  exact .bind (mirrors_modifyGlobals fun _ => (NameMap.mapValues_insert v).symm)
    fun _ u _ => locals u

theorem mirrors_deleteLocal (name : String) :
    Step.Mirrors E.executions s (deleteLocal name) (deleteLocal name) id := by
  unfold deleteLocal
  refine .bind (mirrors_modifyLocals fun _ => NameMap.mapValues_erase.symm) fun _ t _ => ?_
  refine .bind (e := id) (mirrors_fromFrame rfl) fun kind u _ =>
    .ite Iff.rfl (fun _ => ?_) fun _ => .pure rfl
  exact mirrors_modifyGlobals fun _ => NameMap.mapValues_erase.symm

theorem mirrors_storeGlobal (name : String) (v : Variable) :
    Step.Mirrors E.executions s (storeGlobal name v) (storeGlobal name (v.rename E)) id := by
  unfold storeGlobal
  have globals (t : Execution) : Step.Mirrors E.executions t (modifyGlobals (·.insert name v))
      (modifyGlobals (·.insert name (v.rename E))) id :=
    mirrors_modifyGlobals fun _ => (NameMap.mapValues_insert v).symm
  refine .bind (e := id) (mirrors_fromFrame rfl) fun kind t _ =>
    .ite Iff.rfl (fun _ => ?_) fun _ => globals t
  exact .bind (mirrors_modifyLocals fun _ => (NameMap.mapValues_insert v).symm)
    fun _ u _ => globals u

theorem mirrors_loadGlobal (name : String) :
    Step.Mirrors E.executions s (loadGlobal name) (loadGlobal name) (Variable.rename E) := by
  unfold loadGlobal
  refine .bind (e := E.scope) (mirrors_fromFrame rfl) fun globals t _ => ?_
  refine .bind (mirrors_scope globals) fun names u _ => ?_
  rw [NameMap.get?_mapValues]
  cases names.get? name with
  | some v => exact .pure rfl
  | none =>
    have builtin := Builtins.lookup?_rename (E := E) name
    simp only [Option.map_none]
    cases hname : Builtins.lookup? name with
    | some a =>
      rw [hname, Option.map_some, Option.some.injEq] at builtin
      exact .pure (by rw [Variable.rename_var, builtin])
    | none => exact mirrors_unbound name

theorem mirrors_loadFast (name : String) :
    Step.Mirrors E.executions s (loadFast name) (loadFast name) (Variable.rename E) := by
  unfold loadFast
  refine .bind mirrors_locals fun names t _ => ?_
  rw [NameMap.get?_mapValues]
  cases names.get? name with
  | some v => exact .pure rfl
  | none => exact mirrors_unbound name

theorem mirrors_loadName (name : String) :
    Step.Mirrors E.executions s (loadName name) (loadName name) (Variable.rename E) := by
  unfold loadName
  refine .bind mirrors_locals fun names t _ => ?_
  rw [NameMap.get?_mapValues]
  cases names.get? name with
  | some v => exact .pure rfl
  | none => exact mirrors_loadGlobal name

/-- The first table around that binds a name is the same one. -/
theorem findSome?_rename {heap heap' : Heap} (h : heap.Matches E heap') (name : String)
    (scopes : List ScopeId) :
    (scopes.map E.scope).findSome? (fun scope => (heap'.scopeAt scope).get? name) =
      (scopes.findSome? fun scope => (heap.scopeAt scope).get? name).map (Variable.rename E) := by
  induction scopes with
  | nil => rfl
  | cons scope rest ih =>
    rw [List.map_cons, List.findSome?_cons, List.findSome?_cons, ih, h.scopeAt, NameMap.get?_mapValues]
    cases (heap.scopeAt scope).get? name <;> rfl

theorem mirrors_loadDeref (name : String) :
    Step.Mirrors E.executions s (loadDeref name) (loadDeref name) (Variable.rename E) := by
  unfold loadDeref
  apply Mirrors.read
  · intro t ht
    simp only [ht.frame]
    rfl
  have around : (s.frame.rename E).cells :: (s.frame.rename E).enclosing.reverse =
      (s.frame.cells :: s.frame.enclosing.reverse).map E.scope := by simp
  -- the same table binds the name on both sides, or none does
  cases found : (s.frame.cells :: s.frame.enclosing.reverse).findSome?
      fun scope => (s.context.heap.scopeAt scope).get? name with
  | none =>
    apply Mirrors.read
    · intro t ht
      simp only [around, findSome?_rename ht.context.heap, found, Option.map_none]
      rfl
    · simp only [found]
      exact mirrors_unbound name
  | some v =>
    apply Mirrors.read
    · intro t ht
      simp only [around, findSome?_rename ht.context.heap, found, Option.map_some]
      rfl
    · simp only [found]
      exact .pure rfl

theorem mirrors_ownCell? (name : String) :
    Step.Mirrors E.executions s (ownCell? name) (ownCell? name)
      (Option.map (Variable.rename E)) := by
  unfold ownCell?
  refine .bind (e := E.scope) (mirrors_fromFrame rfl) fun cells t _ => ?_
  exact .bind (mirrors_scope cells) fun names u _ => .pure NameMap.get?_mapValues

theorem mirrors_loadAttribute (object : Variable) (name : String) :
    Step.Mirrors E.executions s (loadAttribute object name) (loadAttribute (object.rename E) name)
      (Variable.rename E) := by
  have load (values : List Value) : ∀ s : Execution, Step.Mirrors E.executions s
      (loadAttribute.load name values) (loadAttribute.load name (values.map (Value.rename E)))
      (List.map (Value.rename E)) := by
    induction values with
    | nil => exact fun s => .pure rfl
    | cons a rest ih =>
      intro s
      have answer (values : List Value) (t : Execution) : Step.Mirrors E.executions t
          (do pure (values ++ (← loadAttribute.load name rest)))
          (do pure (values.map (Value.rename E) ++
            (← loadAttribute.load name (rest.map (Value.rename E)))))
          (List.map (Value.rename E)) :=
        .bind (ih t) fun as _ _ => .pure List.map_append.symm
      rw [List.map_cons, loadAttribute.load, loadAttribute.load]
      cases found : a.attribute? s.context.heap name with
      | some v =>
        apply Mirrors.read
        · intro t ht
          simp only [ht.context.heap.attribute?, found, Option.map_some, pure_bind,
            Variable.values_rename]
          rfl
        · simp only [found, pure_bind]
          exact answer v.values s
      | none =>
        apply Mirrors.read
        · intro t ht
          simp only [ht.context.heap.attribute?, found, Option.map_none, ht.context.heap.describe,
            pure_bind]
          rfl
        · simp only [found, pure_bind]
          exact .bind (mirrors_analysis (Analysis.mirrors_record _)) fun _ t _ => answer [.any] t
  unfold loadAttribute
  rw [Variable.values_rename]
  exact .bind (load object.values s) fun as _ _ => .pure (Variable.rename_ofValues as).symm

/-! ## Edges -/

theorem addPending_rename (target : Nat) (state : BlockState) (pending : List (Nat × BlockState)) :
    addPending target (state.rename E) (pending.map (Prod.map id (BlockState.rename E))) =
      (addPending target state pending).map (List.map (Prod.map id (BlockState.rename E))) := by
  induction pending with
  | nil => rfl
  | cons entry rest ih =>
    obtain ⟨block, known⟩ := entry
    simp only [List.map_cons, Prod.map_apply, id_eq, addPending]
    split
    · rw [BlockState.merge_rename]
      exact Except.bind_map_of fun _ => rfl
    · rw [ih]
      exact Except.bind_map_of fun _ => rfl

theorem mirrors_enter (target : Nat) (state : BlockState) :
    Step.Mirrors E.executions s (enter target state) (enter target (state.rename E)) id := by
  unfold enter
  apply Mirrors.read
  · intro t ht
    simp only [ht.frame, Frame.rename_block, Frame.rename_code, Frame.rename_name,
      Frame.rename_pending, addPending_rename]
    rfl
  refine .ite Iff.rfl (fun _ => ?_) fun _ => .pure rfl
  refine .ite Iff.rfl (fun _ => ?_) fun _ => ?_
  · exact .bind (e := id) (.throw _) fun _ _ h => (by cases h)
  · refine .bind (mirrors_check rfl) fun pending t _ => ?_
    exact mirrors_modifyFrame (.frame t rfl rfl rfl) rfl

theorem mirrors_jump (target : Nat) :
    Step.Mirrors E.executions s (jump target) (jump target) id :=
  .bind (mirrors_fromFrame rfl) fun state _ _ => mirrors_enter target state

theorem mirrors_iterate (target : Nat) (op : Opcode) :
    Step.Mirrors E.executions s (iterate target op) (iterate target op) id := by
  unfold iterate
  refine .bind (e := BlockState.rename E) (mirrors_fromFrame rfl) fun state t _ => ?_
  obtain ⟨locals, stack⟩ := state
  cases stack with
  | nil => exact mirrors_underflow op
  | cons top rest =>
    exact .bind (mirrors_enter target ⟨locals, rest⟩) fun _ _ _ => mirrors_pushValue .any

theorem mirrors_takePending (block : Nat) :
    Step.Mirrors E.executions s (takePending block) (takePending block)
      (Option.map (BlockState.rename E)) := by
  unfold takePending
  refine .bind (e := List.map (Prod.map id (BlockState.rename E))) (mirrors_fromFrame rfl)
    fun pending t _ => ?_
  have found : (pending.map (Prod.map id (BlockState.rename E))).find? (·.1 == block) =
      (pending.find? (·.1 == block)).map (Prod.map id (BlockState.rename E)) := by
    rw [List.find?_map]
    rfl
  rw [found]
  cases pending.find? (·.1 == block) with
  | none => exact .pure rfl
  | some entry =>
    refine .bind (mirrors_modifyFrame (.frame t rfl rfl rfl) ?_) fun _ _ _ => .pure rfl
    simp only [Frame.rename, List.filter_map]
    rfl

theorem mirrors_returnTop (op : Opcode) :
    Step.Mirrors E.executions s (returnTop op) (returnTop op) id := by
  unfold returnTop
  refine .bind (mirrors_pop op) fun v t _ => mirrors_modifyFrame (.frame t rfl rfl rfl) ?_
  simp only [Frame.rename, BlockState.rename, addFinalLocals, BlockState.rename_mergeLocals,
    List.map_append, List.map_cons, List.map_nil]

/-! ## Functions and calls -/

theorem mirrors_constant (index : Nat) :
    Step.Mirrors E.executions s (constant index) (constant index) id := by
  unfold constant
  apply Mirrors.read
  · intro t ht
    simp only [ht.frame, Frame.rename_code, Frame.rename_site]
    rfl
  · exact mirrors_check (congrFun Except.map_id _).symm

theorem mirrors_popFlagged (flags bit : UInt8) (op : Opcode) :
    Step.Mirrors E.executions s (popFlagged flags bit op) (popFlagged flags bit op)
      (Option.map (Variable.rename E)) :=
  .ite Iff.rfl (fun _ => (mirrors_pop op).map fun _ => rfl) fun _ => .pure rfl

theorem mirrors_functionOf (codeVar : Variable) (defaults : List Variable)
    (kwDefaults : NameMap Variable) :
    Step.Mirrors E.executions s (functionOf codeVar defaults kwDefaults)
      (functionOf (codeVar.rename E) (defaults.map (Variable.rename E))
        (kwDefaults.mapValues (Variable.rename E))) (Value.rename E) := by
  unfold functionOf
  refine .bind (mirrors_check codeVar.atomic_rename) fun a t _ => ?_
  rcases a with _ | _ | l | _ | _ | _ | _ | _ | _ | _ | _ | _ | _ | _
  case literal =>
    cases l with
    | code site code =>
      refine .bind (mirrors_check (congrFun Except.map_id _).symm) fun _ _ _ => ?_
      refine .bind (e := Surroundings.rename E) (mirrors_fromFrame rfl) fun around u _ => ?_
      rw [← Signature.rename_ofCode]
      refine .bind (e := E.fn) (mirrors_analysis (Analysis.mirrors_withHeap
        (.single (.addFunction _)) fun heap' h admits => h.addFunction admits)) fun id v hid => ?_
      refine .bind (mirrors_modifyFrame ⟨.refl _, rfl, rfl, fun known hknown => ?_⟩ ?_)
        fun _ _ _ => .pure rfl
      · refine (List.mem_append.mp hknown).imp_right fun new => ?_
        cases List.mem_singleton.mp new
        cases hid
        simp [Heap.isInterpreted, Heap.functionAt, FunctionInfo.isInterpreted,
          FunctionInfo.interpreted?]
      · simp only [Frame.rename, List.map_append, List.map_cons, List.map_nil]
    | _ => exact .throw _
  all_goals
    simp only [Value.rename]
    exact Value.typeName_rename (E := E) _ ▸ .throw _

theorem mirrors_makeFunction (flags : UInt8) (op : Opcode) :
    Step.Mirrors E.executions s (makeFunction flags op) (makeFunction flags op)
      (Value.rename E) := by
  unfold makeFunction
  refine .bind (mirrors_pop op) fun codeVar _ _ => ?_
  refine .bind (mirrors_popFlagged flags 8 op) fun _ _ _ => ?_
  refine .bind (mirrors_popFlagged flags 4 op) fun _ _ _ => ?_
  refine .bind (mirrors_popFlagged flags 2 op) fun kwVar _ _ => ?_
  refine .bind (e := fun names : NameMap Variable => names.mapValues (Variable.rename E))
    (mirrors_check ?_) fun kwDefaults _ _ => ?_
  · cases kwVar with
    | none => rfl
    | some v => exact keywordDefaults_rename v
  refine .bind (mirrors_popFlagged flags 1 op) fun var _ _ => ?_
  refine .bind (e := List.map (Variable.rename E)) (mirrors_check ?_)
    fun defaults _ _ => mirrors_functionOf codeVar defaults kwDefaults
  cases var with
  | none => rfl
  | some v => exact positionalDefaults_rename v

theorem addClasses_rename (known classes : List ClassId) :
    addClasses (known.map E.cls) (classes.map E.cls) = (addClasses known classes).map E.cls := by
  induction classes generalizing known with
  | nil => rfl
  | cons cls rest ih =>
    rw [List.map_cons, addClasses, addClasses, ← ih]
    congr 1
    have mem : E.cls cls ∈ known.map E.cls ↔ cls ∈ known := by simp
    simp only [mem]
    split <;> simp

theorem mirrors_callOn (hev : ev.Mirrors E) (callee : Variable) (args : Args) :
    Step.Mirrors E.executions s (callOn ev callee args)
      (callOn ev (callee.rename E) (args.rename E)) id := by
  unfold callOn
  apply Mirrors.read
  · intro t ht
    simp only [Variable.values_rename, List.any_map, Function.comp_def, ht.context.heap.buildsClass]
    rfl
  refine .bind (mirrors_analysis (callVariable_mirrors hev callee args)) fun result _ _ => ?_
  refine .bind mirrors_syncPosition fun _ t _ => .ite Iff.rfl (fun _ => ?_) fun _ => mirrors_push result
  have built : (result.rename E).values.filterMap Value.asClass? =
      (result.values.filterMap Value.asClass?).map E.cls := by
    simp [List.filterMap_map, List.map_filterMap]
  rw [built]
  refine .bind (mirrors_modifyFrame (.frame t rfl rfl rfl) ?_) fun _ _ _ => mirrors_push result
  simp only [Frame.rename, addClasses_rename]

theorem mirrors_operands : Step.Mirrors E.executions s (fromFrame (·.operands))
    (fromFrame (·.operands)) (Operands.rename E) := mirrors_fromFrame rfl

theorem mirrors_expectNames (index : Nat) :
    Step.Mirrors E.executions s (expectNames index) (expectNames index) id := by
  unfold expectNames
  refine .bind (mirrors_constant index) fun l _ _ => ?_
  dsimp only [id]
  cases (Literal.Shape.list .str).read l with
  | error problem => exact .bind (e := id) (.throw _) fun _ _ h => (by cases h)
  | ok names =>
    refine .bind (e := id) (.pure rfl) fun names _ _ => ?_
    refine .bind mirrors_operands fun operands _ _ => ?_
    refine .bind (mirrors_check (operands.expectNames_rename names)) fun after t _ => ?_
    exact mirrors_modifyFrame (.frame t rfl rfl rfl) rfl

theorem mirrors_callPlain (hev : ev.Mirrors E) (count : Nat) (op : Opcode) :
    Step.Mirrors E.executions s (callPlain ev count op) (callPlain ev count op) id := by
  unfold callPlain
  refine .bind (mirrors_popMany count op) fun values _ _ => ?_
  refine .bind (mirrors_pop op) fun upper _ _ => .bind (mirrors_pop op) fun lower _ _ => ?_
  -- which of the two entries is the callee, and with it the operands
  have chosen : (if (lower.rename E).holds .null
        then (upper.rename E, values.map (Variable.rename E))
        else (lower.rename E, upper.rename E :: values.map (Variable.rename E))) =
      Prod.map (Variable.rename E) (List.map (Variable.rename E))
        (if lower.holds .null then (upper, values) else (lower, upper :: values)) := by
    rw [Variable.holds_null_rename]
    split <;> rfl
  rw [chosen]
  generalize (if lower.holds .null then (upper, values) else (lower, upper :: values)) = call
  obtain ⟨callee, values⟩ := call
  refine .bind mirrors_operands fun operands t _ => ?_
  refine .bind (mirrors_modifyFrame (.frame t rfl rfl rfl) rfl) fun _ _ _ => ?_
  exact .bind (mirrors_check (operands.arguments_rename values)) fun args _ _ =>
    mirrors_callOn hev callee args

theorem mirrors_callExpanded (hev : ev.Mirrors E) (flags : UInt8) (op : Opcode) :
    Step.Mirrors E.executions s (callExpanded ev flags op) (callExpanded ev flags op) id := by
  unfold callExpanded
  refine .bind (mirrors_popFlagged flags 1 op) fun starStar _ _ => ?_
  refine .bind (mirrors_pop op) fun star _ _ => .bind (mirrors_pop op) fun callee _ _ => ?_
  have finish (t : Execution) : Step.Mirrors E.executions t
      (do
        let operands ← fromFrame (·.operands)
        let args ← check (operands.expanded star starStar)
        callOn ev callee args)
      (do
        let operands ← fromFrame (·.operands)
        let args ← check (operands.expanded (star.rename E) (starStar.map (Variable.rename E)))
        callOn ev (callee.rename E) args) id := by
    refine .bind mirrors_operands fun operands _ _ => ?_
    exact .bind (mirrors_check (operands.expanded_rename star starStar)) fun args _ _ =>
      mirrors_callOn hev callee args
  refine .bind mirrors_stack fun vs t _ => ?_
  cases vs with
  | nil => exact finish t
  | cons lower rest =>
    simp only [List.map_cons, Variable.holds_null_rename]
    refine .ite Iff.rfl (fun _ => ?_) fun _ => finish t
    exact .bind (mirrors_modifyState rfl) fun _ u _ => finish u

/-! ## Instructions -/

/-- Replacing an entry of the stack by a container made of it and of the top. -/
theorem mirrors_gather (depth : Nat) (op : Opcode) {combine : Variable → Variable → Value}
    (h : ∀ v w : Variable, combine (v.rename E) (w.rename E) = (combine v w).rename E) :
    Step.Mirrors E.executions s (do
        let item ← pop op
        let list ← peek depth op
        replace depth (combine list item).var)
      (do
        let item ← pop op
        let list ← peek depth op
        replace depth (combine list item).var) id := by
  refine .bind (mirrors_pop op) fun item _ _ => .bind (mirrors_peek depth op) fun list t _ => ?_
  rw [h]
  exact mirrors_replace depth (combine list item).var

/-- One instruction. -/
theorem perform_mirrors (hev : ev.Mirrors E) (op : Opcode) :
    Step.Mirrors E.executions s (perform ev op) (perform ev op) id := by
  have bool : (Value.frozen Builtins.bool).rename E = .frozen Builtins.bool :=
    congrArg Value.frozen (Renaming.cls_builtin (by decide))
  -- an instruction is a sequence of steps, each of which mirrors its counterpart
  cases op with
  | nop | resume | precall | cache | copyFreeVars => exact .pure rfl
  | pushNull => exact mirrors_pushValue .null
  | popTop => exact .bind (mirrors_pop _) fun _ _ _ => .pure rfl
  | copy depth => exact .bind (mirrors_peek depth _) fun v _ _ => mirrors_push v
  | swap depth =>
    refine .bind (mirrors_peek 1 _) fun top _ _ => .bind (mirrors_peek depth _) fun other _ _ => ?_
    exact .bind (mirrors_replace depth top) fun _ _ _ => mirrors_replace 1 other
  | loadConst index =>
    exact .bind (mirrors_constant index) fun l _ _ => mirrors_pushValue (.literal l)
  | loadName name => exact .bind (mirrors_loadName name) fun v _ _ => mirrors_push v
  | storeName name | storeFast name =>
    exact .bind (mirrors_pop _) fun v _ _ => mirrors_storeLocal name v
  | deleteName name | deleteFast name => exact mirrors_deleteLocal name
  | loadGlobal name withNull =>
    have load (t : Execution) : Step.Mirrors E.executions t
        (do push (← FrameStep.loadGlobal name)) (do push (← FrameStep.loadGlobal name)) id :=
      .bind (mirrors_loadGlobal name) fun v _ _ => mirrors_push v
    exact .ite Iff.rfl (fun _ => .bind (mirrors_pushValue .null) fun _ t _ => load t)
      fun _ => load s
  | storeGlobal name => exact .bind (mirrors_pop _) fun v _ _ => mirrors_storeGlobal name v
  | loadFast name => exact .bind (mirrors_loadFast name) fun v _ _ => mirrors_push v
  | makeCell name =>
    refine .bind mirrors_locals fun names _ _ => ?_
    rw [NameMap.get?_mapValues]
    cases names.get? name with
    | none => exact .pure rfl
    | some v => exact mirrors_modifyCells fun _ => (NameMap.mapValues_insert v).symm
  | loadClosure name =>
    refine .bind (mirrors_ownCell? name) fun found _ _ => ?_
    cases found with
    | none => exact mirrors_push Value.any.var
    | some v => exact mirrors_push v
  | loadDeref name => exact .bind (mirrors_loadDeref name) fun v _ _ => mirrors_push v
  | storeDeref name =>
    exact .bind (mirrors_pop _) fun v _ _ =>
      mirrors_modifyCells fun _ => (NameMap.mapValues_insert v).symm
  | loadAttr name =>
    refine .bind (mirrors_pop _) fun object _ _ => ?_
    exact .bind (mirrors_loadAttribute object name) fun v _ _ => mirrors_push v
  | loadMethod name =>
    refine .bind (mirrors_pop _) fun object _ _ => ?_
    refine .bind (mirrors_loadAttribute object name) fun v _ _ => ?_
    exact .bind (mirrors_pushValue .null) fun _ _ _ => mirrors_push v
  | storeAttr name =>
    refine .bind (mirrors_pop _) fun object _ _ => .bind (mirrors_pop _) fun v _ _ => ?_
    exact mirrors_analysis (Analysis.mirrors_modifyHeap (Heap.Grows.setAttribute object name v)
      fun _ h => h.setAttribute object name v)
  | loadBuildClass =>
    have builtin := Builtins.lookup?_rename (E := E) "__build_class__"
    simp only [perform]
    cases hname : Builtins.lookup? "__build_class__" with
    | some a =>
      rw [hname, Option.map_some, Option.some.injEq] at builtin
      exact mirrors_pushBuiltin builtin
    | none => exact .throw _
  | buildTuple count =>
    refine .bind (mirrors_popMany count _) fun vs _ _ => ?_
    have pushed (t : Execution) := mirrors_pushValue (E := E) (s := t) (.tuple (some vs))
    simpa using pushed _
  | buildList count =>
    refine .bind (mirrors_popMany count _) fun vs _ _ => ?_
    have pushed (t : Execution) := mirrors_pushValue (E := E) (s := t) (.list (some vs))
    simpa using pushed _
  | buildMap count =>
    refine .bind (mirrors_check (congrFun Except.map_id _).symm) fun size _ _ => ?_
    refine .bind (mirrors_popMany _ _) fun vs _ _ => ?_
    rw [pairUp_rename]
    have pushed (t : Execution) := mirrors_pushValue (E := E) (s := t) (.dict (some (pairUp vs)))
    simpa using pushed _
  | buildConstKeyMap count =>
    refine .bind (mirrors_pop _) fun keys _ _ => .bind (mirrors_popMany count _) fun vs _ _ => ?_
    exact .bind (mirrors_check (keyedBy_rename keys vs)) fun a _ _ => mirrors_pushValue a
  | listAppend depth => exact mirrors_gather depth _ appended_rename
  | listExtend depth => exact mirrors_gather depth _ extended_rename
  | listToTuple =>
    refine .bind (mirrors_pop _) fun v _ _ => ?_
    rw [tupleOf_rename]
    exact mirrors_pushValue (tupleOf v)
  | dictMerge depth | dictUpdate depth => exact mirrors_gather depth _ combined_rename
  | makeFunction flags =>
    exact .bind (mirrors_makeFunction flags _) fun a _ _ => mirrors_pushValue a
  | kwNames index => exact mirrors_expectNames index
  | call count => exact mirrors_callPlain hev count _
  | callFunctionEx flags => exact mirrors_callExpanded hev flags _
  | binaryOp _ =>
    refine .bind (mirrors_pop _) fun right _ _ => .bind (mirrors_pop _) fun left _ _ => ?_
    exact .bind (mirrors_fromHeap fun _ h => h.binaryResults left right) fun v _ _ => mirrors_push v
  | compareOp _ | isOp _ | containsOp _ =>
    exact .bind (mirrors_popMany 2 _) fun _ _ _ => mirrors_pushBuiltin bool
  | unaryNot => exact .bind (mirrors_pop _) fun _ _ _ => mirrors_pushBuiltin bool
  | unaryNegative =>
    refine .bind (mirrors_pop _) fun operand _ _ => ?_
    have negated : (operand.rename E).values.map negationResult =
        (operand.values.map negationResult).map (Value.rename E) := by
      simp [negationResult_rename, Function.comp_def]
    rw [negated, ← Variable.rename_ofValues]
    exact mirrors_push _
  | getIter => exact .bind (mirrors_pop _) fun _ _ _ => mirrors_pushValue .any
  | forIter target => exact mirrors_iterate target _
  | popJumpIfFalse target | popJumpIfTrue target | popJumpIfNone target
  | popJumpIfNotNone target => exact .bind (mirrors_pop _) fun _ _ _ => mirrors_jump target
  | importName _ => exact .bind (mirrors_popMany 2 _) fun _ _ _ => mirrors_pushValue .any
  | importFrom _ => exact .bind (mirrors_peek 1 _) fun _ _ _ => mirrors_pushValue .any
  | returnValue => exact mirrors_returnTop _
  | jumpForward target | jumpBackward target => exact mirrors_jump target
  | raiseVarargs count => exact .bind (mirrors_popMany count _) fun _ _ _ => .pure rfl

/-! ## Blocks -/

theorem runInstructions_mirrors (hev : ev.Mirrors E) (instructions : List Instruction) :
    Step.Mirrors E.executions s (runInstructions ev instructions)
      (runInstructions ev instructions) id := by
  induction instructions generalizing s with
  | nil => exact .pure rfl
  | cons instruction rest ih =>
    unfold runInstructions
    refine .bind (mirrors_modifyFrame (.frame s rfl rfl rfl) rfl) fun _ _ _ => ?_
    refine .bind mirrors_syncPosition fun _ t _ => ?_
    have execute : Step.Mirrors E.executions t (execute ev instruction.opcode)
        (FrameStep.execute ev instruction.opcode) id :=
      .bind (perform_mirrors hev instruction.opcode) fun _ _ _ => .pure rfl
    refine .bind execute fun flow _ _ => ?_
    cases flow with
    | stop => exact .pure rfl
    | next => exact ih

theorem runBlock_mirrors (hev : ev.Mirrors E) (index : Nat) (block : Block) (isLast : Bool) :
    Step.Mirrors E.executions s (runBlock ev index block isLast) (runBlock ev index block isLast)
      id := by
  unfold runBlock
  refine .bind (mirrors_takePending index) fun found t _ => ?_
  cases found with
  | none => exact .pure rfl
  | some state =>
    refine .bind (mirrors_modifyFrame (.frame t rfl rfl rfl) rfl) fun _ _ _ => ?_
    refine .bind (runInstructions_mirrors hev block) fun flow _ _ => ?_
    exact .ite Iff.rfl (fun _ => mirrors_jump _) fun _ => .pure rfl

theorem runBlocks_mirrors (hev : ev.Mirrors E) (index : Nat) (blocks : List Block) :
    Step.Mirrors E.executions s (runBlocks ev index blocks) (runBlocks ev index blocks) id := by
  induction blocks generalizing s index with
  | nil => exact .pure rfl
  | cons block rest ih => exact .bind (runBlock_mirrors hev index block _) fun _ _ _ => ih (index + 1)

theorem startPending_rename (frame : Frame) : startPending (frame.rename E) =
    (startPending frame).map (Prod.map id (BlockState.rename E)) := by
  simp only [startPending, Frame.rename_initialLocals, Frame.rename_pending, List.map_cons,
    List.filter_map]
  rfl

theorem runAll_mirrors (hev : ev.Mirrors E) :
    Step.Mirrors E.executions s (runAll ev) (runAll ev) id := by
  unfold runAll
  apply Mirrors.read
  · intro t ht
    simp only [ht.frame, Frame.rename_finished, Frame.rename_name, Frame.rename_code]
    rfl
  refine .ite Iff.rfl (fun _ => ?_) fun _ => ?_
  · exact .bind (e := id) (.throw _) fun _ _ h => (by cases h)
  refine .bind (mirrors_modifyFrame (.frame s rfl rfl rfl) ?_) fun _ _ _ => ?_
  · simp only [startPending_rename]
    rfl
  refine .bind (runBlocks_mirrors hev 0 _) fun _ t _ => ?_
  exact mirrors_modifyFrame (.frame t rfl rfl rfl) rfl

end FrameStep

/-! ## Whole frames -/

section Frames

variable {ctx ctx' : Context} {ev : Evaluator}

theorem Frame.run_mirrors (hev : ev.Mirrors E) (frame : Frame) :
    Step.Mirrors E.contexts ctx (frame.run ev) ((frame.rename E).run ev)
      (Prod.map (Frame.rename E) id) := by
  have all := FrameStep.runAll_mirrors (s := ⟨frame, ctx⟩) hev
  refine ⟨all.grows.context, fun t ht admits => ?_⟩
  obtain ⟨matched, answer⟩ := all.follows ⟨frame.rename E, t⟩ ⟨rfl, ht⟩ admits
  refine ⟨matched.context, congrArg Except.ok (Prod.ext matched.frame ?_)⟩
  exact answer.trans (congrFun Except.map_id _)

/-- A whole frame. -/
theorem Frame.runToEnd_mirrors (hev : ev.Mirrors E) (frame : Frame) :
    Step.Mirrors E.contexts ctx (frame.runToEnd ev) ((frame.rename E).runToEnd ev)
      (Frame.rename E) := by
  unfold Frame.runToEnd
  refine .bind (frame.run_mirrors hev) fun done _ _ => ?_
  exact .bind (.ofExcept (e := id) (congrFun Except.map_id _).symm) fun _ _ _ => .pure rfl

/-- A frame that has run to its end is still that of its function with the locals it began with, and
what it created is interpreted. -/
theorem Frame.runToEnd_sound (hev : ev.Mirrors E) {frame done : Frame}
    (fresh : frame.functions = []) (h : frame.runToEnd ev ctx = (.ok done, ctx')) :
    done.Sound ctx'.heap ∧ done.function = frame.function ∧
      done.initialLocals = frame.initialLocals := by
  have all := Frame.runToEnd_eq_ok.mp h
  have grows := (FrameStep.runAll_mirrors (s := ⟨frame, ctx⟩) hev).grows
  rw [all] at grows
  obtain ⟨-, u, -, hdone⟩ := FrameStep.runAll_eq_ok.mp all
  cases hdone
  refine ⟨⟨rfl, fun id hid => ?_⟩, grows.function, grows.initialLocals⟩
  exact (grows.functions id hid).resolve_left (by simp [fresh])

/-- The table of a frame that is about to run. -/
theorem addScope_mirrors (names : NameMap Variable) :
    Step.Mirrors E.contexts ctx (Analysis.withHeap (·.addScope names))
      (Analysis.withHeap (·.addScope (names.mapValues (Variable.rename E)))) E.scope :=
  Analysis.mirrors_withHeap (.single (.addScope names)) fun _ h admits => h.addScope admits

theorem Frame.withGlobals_mirrors (code : Code) (site : CodeSite) (globals : NameMap Variable) :
    Step.Mirrors E.contexts ctx (withGlobals code site globals)
      (withGlobals code site (globals.mapValues (Variable.rename E))) (Frame.rename E) := by
  unfold withGlobals
  refine .bind (addScope_mirrors globals) fun scope _ _ => ?_
  exact .bind (addScope_mirrors []) fun cells _ _ => .pure rfl

theorem Builtins.moduleGlobals_rename :
    Builtins.moduleGlobals.mapValues (Value.rename E) = Builtins.moduleGlobals := by
  have str : E.cls Builtins.str = Builtins.str := Renaming.cls_builtin (by decide)
  simp [Builtins.moduleGlobals, NameMap.mapValues, Value.noneObject, str]

theorem Frame.forModule_mirrors (code : Code) (site : CodeSite) :
    Step.Mirrors E.contexts ctx (forModule code site) (forModule code site) (Frame.rename E) := by
  have made : Step.Mirrors E.contexts ctx _ _ _ :=
    withGlobals_mirrors code site (Builtins.moduleGlobals.mapValues Value.var)
  have same : (Builtins.moduleGlobals.mapValues Value.var).mapValues (Variable.rename E) =
      (Builtins.moduleGlobals.mapValues (Value.rename E)).mapValues Value.var := by
    simp [NameMap.mapValues, Function.comp_def]
  rwa [same, Builtins.moduleGlobals_rename] at made

theorem Frame.forCall_mirrors (id : FunctionId) (function : InterpretedFunction)
    (locals : NameMap Variable) :
    Step.Mirrors E.contexts ctx (forCall id function locals)
      (forCall (E.fn id) (function.rename E) (locals.mapValues (Variable.rename E)))
      (Frame.rename E) := by
  unfold forCall
  refine .bind (addScope_mirrors []) fun cells _ _ => .pure ?_
  simp [Frame.start, Frame.rename, BlockState.rename, NameMap.mapValues, Operands.rename,
    Surroundings.rename]

/-- What a body leaves behind once it has run. -/
theorem Frame.forCall_sound (hev : ev.Mirrors E) {id : FunctionId} {function : InterpretedFunction}
    {locals : NameMap Variable} {start done : Frame} {before : Context}
    (hstart : forCall id function locals before = (.ok start, ctx))
    (hrun : Analysis.running id (start.runToEnd ev) ctx = (.ok done, ctx')) :
    done.Sound ctx'.heap ∧ done.function = some id ∧ done.initialLocals = locals := by
  obtain ⟨after, hbody, rfl⟩ := Analysis.running_eq_ok hrun
  cases hstart
  exact Frame.runToEnd_sound hev rfl hbody

/-- The frame of a body is recorded behind all frames before it, as the frame of its function with
the parameters it was given. -/
theorem Evaluator.runIn_recorded (hev : ev.Mirrors E) {id : FunctionId}
    {function : InterpretedFunction} {locals : NameMap Variable} {frame : FrameId}
    (h : Evaluator.runIn ev id function locals ctx = (.ok frame, ctx')) :
    ctx.heap.frames.size ≤ frame.index ∧ ctx'.heap.frames.size = frame.index + 1 ∧
      (ctx'.heap.frameAt frame).function = some id ∧
      (ctx'.heap.frameAt frame).initialLocals = locals := by
  unfold Evaluator.runIn at h
  obtain ⟨start, t, hstart, h⟩ := Step.bind_eq_ok.mp h
  obtain ⟨done, u, hrun, hadd⟩ := Step.bind_eq_ok.mp h
  have made : ctx.Grows (Frame.forCall id function locals ctx).2 :=
    (Frame.forCall_mirrors (E := E) id function locals).grows
  have ran : t.Grows (Analysis.running id (start.runToEnd ev) t).2 :=
    (Analysis.mirrors_running id (Frame.runToEnd_mirrors hev start)).grows
  rw [hstart] at made
  rw [hrun] at ran
  obtain ⟨-, ofFunction, locals⟩ := Frame.forCall_sound hev hstart hrun
  cases hadd
  refine ⟨(made.heap.trans ran.heap).sizeLE.frames, Array.size_push .., ?_⟩
  simpa [Heap.frameAt, Heap.addFrame] using ⟨ofFunction, locals⟩

/-- A body in a frame of its own, with its function on the call stack. -/
theorem Evaluator.runIn_mirrors (hev : ev.Mirrors E) (id : FunctionId)
    (function : InterpretedFunction) (locals : NameMap Variable) :
    Step.Mirrors E.contexts ctx (Evaluator.runIn ev id function locals)
      (Evaluator.runIn ev (E.fn id) (function.rename E) (locals.mapValues (Variable.rename E)))
      E.frame := by
  unfold Evaluator.runIn
  refine .bind (Frame.forCall_mirrors id function locals) fun start t hstart => ?_
  refine .bind (Analysis.mirrors_running id (start.runToEnd_mirrors hev)) fun done u hrun => ?_
  obtain ⟨sound, -⟩ := Frame.forCall_sound hev hstart hrun
  exact Analysis.mirrors_withHeap (.single (.addFrame done sound)) fun _ h admits => h.addFrame admits

end Frames

/-- The evaluators of the interpreter are stacked on one that refuses to run anything. -/
theorem Evaluator.atDepth_mirrors (E : Renaming) (depth : Nat) : (atDepth depth).Mirrors E := by
  induction depth with
  | zero => exact ⟨fun _ _ _ _ => .throw _, fun _ _ _ _ => .throw _, fun _ _ _ _ _ _ h => (by cases h),
      fun _ _ _ => .throw _⟩
  | succ depth ih =>
    refine ⟨fun _ => runIn_mirrors ih, fun _ => runIn_mirrors ih, fun _ _ _ _ _ _ h => ?_,
      fun ctx callee args => callValue_mirrors ih args ctx callee⟩
    rw [(runIn_recorded ih h).2.1]
    exact Nat.lt_succ_self _

theorem interpreter_mirrors (E : Renaming) : interpreter.Mirrors E :=
  Evaluator.atDepth_mirrors E depthLimit

end StubInference
