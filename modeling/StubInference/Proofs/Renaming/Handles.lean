import StubInference.Proofs.Renaming.Shifts
import StubInference.Proofs.Value.Handles

/-!
# Handles and renamings

A renaming changes data just where it moves one of the handles in it. So a state that no renaming tells
apart which leaves its objects in place is one whose handles all stand for such objects.

## Main definitions

* `Handle.rename`, `Renaming.Leaves` — handles in the other heap, and handles that are not moved
* `ClassInfo.handles`, `Frame.handles`, `Args.handles` and the like — the handles in data
* `Heap.handles`, `Context.handles` — the handles in the whole state
* `Heap.HasAll` — no handle dangles

## Main results

* `Value.rename_eq_self`, `Frame.rename_eq_self` and the like — what renamings leave alone
* `Heap.has_iff_leaves` — what a heap holds is what renamings leave alone which leave the heap alone
* `Context.closed_iff` — a state is closed just where none of its handles dangles
-/

namespace StubInference

/-- A handle in the other heap. -/
def Handle.rename (E : Renaming) : Handle → Handle
  | .cls id => .cls (E.cls id)
  | .function id => .function (E.fn id)
  | .object id => .object (E.inst id)
  | .frame id => .frame (E.frame id)
  | .scope id => .scope (E.scope id)

/-- A renaming moves none of the handles. -/
def Renaming.Leaves (E : Renaming) (handles : List Handle) : Prop :=
  ∀ h ∈ handles, h.rename E = h

variable {E : Renaming}

namespace Renaming

variable {x : Handle} {xs ys : List Handle} {α : Type}

@[simp] theorem leaves_nil : E.Leaves [] := List.forall_mem_nil _

@[simp] theorem leaves_cons : E.Leaves (x :: xs) ↔ x.rename E = x ∧ E.Leaves xs :=
  List.forall_mem_cons

@[simp] theorem leaves_append : E.Leaves (xs ++ ys) ↔ E.Leaves xs ∧ E.Leaves ys :=
  List.forall_mem_append

theorem leaves_map {as : List α} {f : α → Handle} :
    E.Leaves (as.map f) ↔ ∀ a ∈ as, (f a).rename E = f a := List.forall_mem_map

theorem leaves_flatMap {as : List α} {f : α → List Handle} :
    E.Leaves (as.flatMap f) ↔ ∀ a ∈ as, E.Leaves (f a) := by
  simp only [Leaves, List.mem_flatMap, forall_exists_index, and_imp]
  exact ⟨fun h a ha x => h x a ha, fun h x a ha => h a ha x⟩

end Renaming

/-! ## Values -/

mutual
/-- A renaming changes a value just where it moves a handle in it. -/
theorem Value.rename_eq_self : ∀ a : Value, a.rename E = a ↔ E.Leaves a.handles
  | .any | .null | .literal _ => by simp [Value.handles]
  | .union members => by
    rw [Value.rename, Value.handles, Value.union.injEq, Value.renameAll_eq_self members]
  | .classObject _ | .function _ | .instanceObject _ | .frozen _ => by
    simp [Value.handles, Handle.rename]
  | .bound receiver _ => by
    simp [Value.handles, Handle.rename, Value.rename_eq_self receiver, and_comm]
  | .tuple elements => by
    rw [Value.rename, Value.handles, Value.tuple.injEq, Variable.renameContents_eq_self elements]
  | .list elements => by
    rw [Value.rename, Value.handles, Value.list.injEq, Variable.renameContents_eq_self elements]
  | .argTuple elements => by
    rw [Value.rename, Value.handles, Value.argTuple.injEq, Variable.renameContents_eq_self elements]
  | .dict entries => by
    rw [Value.rename, Value.handles, Value.dict.injEq, Variable.renameEntries_eq_self entries]
  | .argDict entries => by
    rw [Value.rename, Value.handles, Value.argDict.injEq, Variable.renameNames_eq_self entries]

theorem Value.renameAll_eq_self : ∀ as : List Value,
    Value.renameAll E as = as ↔ E.Leaves (Value.handlesOfAll as)
  | [] => by simp [Value.handlesOfAll]
  | a :: as => by
    rw [Value.renameAll, Value.handlesOfAll, List.cons.injEq, Renaming.leaves_append,
      Value.rename_eq_self a, Value.renameAll_eq_self as]

theorem Variable.rename_eq_self : ∀ v : Variable, v.rename E = v ↔ E.Leaves v.handles
  | .ofBindings bindings => by
    rw [Variable.rename, Variable.handles, Variable.ofBindings.injEq,
      Variable.renameBindings_eq_self bindings]

theorem Variable.renameBindings_eq_self : ∀ bs : List (Binding Value),
    Variable.renameBindings E bs = bs ↔ E.Leaves (Variable.handlesOfBindings bs)
  | [] => by simp [Variable.handlesOfBindings, Variable.renameBindings]
  | ⟨a, _⟩ :: bs => by
    rw [Variable.renameBindings, Variable.handlesOfBindings, List.cons.injEq, Binding.mk.injEq,
      Renaming.leaves_append, Value.rename_eq_self a, Variable.renameBindings_eq_self bs]
    simp

theorem Variable.renameAll_eq_self : ∀ vs : List Variable,
    Variable.renameAll E vs = vs ↔ E.Leaves (Variable.handlesOfAll vs)
  | [] => by simp [Variable.handlesOfAll, Variable.renameAll]
  | v :: vs => by
    rw [Variable.renameAll, Variable.handlesOfAll, List.cons.injEq, Renaming.leaves_append,
      Variable.rename_eq_self v, Variable.renameAll_eq_self vs]

theorem Variable.renameContents_eq_self : ∀ elements : Option (List Variable),
    Variable.renameContents E elements = elements ↔ E.Leaves (Variable.handlesOfContents elements)
  | none => by simp [Variable.handlesOfContents]
  | some vs => by
    rw [Variable.renameContents, Variable.handlesOfContents, Option.some.injEq,
      Variable.renameAll_eq_self vs]

theorem Variable.renamePairs_eq_self : ∀ es : List (Variable × Variable),
    Variable.renamePairs E es = es ↔ E.Leaves (Variable.handlesOfPairs es)
  | [] => by simp [Variable.handlesOfPairs, Variable.renamePairs]
  | (k, v) :: es => by
    rw [Variable.renamePairs, Variable.handlesOfPairs, List.cons.injEq, Prod.mk.injEq,
      Renaming.leaves_append, Renaming.leaves_append, Variable.rename_eq_self k,
      Variable.rename_eq_self v, Variable.renamePairs_eq_self es, and_assoc]

theorem Variable.renameEntries_eq_self : ∀ entries : Option (List (Variable × Variable)),
    Variable.renameEntries E entries = entries ↔ E.Leaves (Variable.handlesOfEntries entries)
  | none => by simp [Variable.handlesOfEntries]
  | some es => by
    rw [Variable.renameEntries, Variable.handlesOfEntries, Option.some.injEq,
      Variable.renamePairs_eq_self es]

theorem Variable.renameNamed_eq_self : ∀ es : List (String × Variable),
    Variable.renameNamed E es = es ↔ E.Leaves (Variable.handlesOfNamed es)
  | [] => by simp [Variable.handlesOfNamed, Variable.renameNamed]
  | (name, v) :: es => by
    rw [Variable.renameNamed, Variable.handlesOfNamed, List.cons.injEq, Prod.mk.injEq,
      Renaming.leaves_append, Variable.rename_eq_self v, Variable.renameNamed_eq_self es]
    simp

theorem Variable.renameNames_eq_self : ∀ entries : Option (List (String × Variable)),
    Variable.renameNames E entries = entries ↔ E.Leaves (Variable.handlesOfNames entries)
  | none => by simp [Variable.handlesOfNames]
  | some es => by
    rw [Variable.renameNames, Variable.handlesOfNames, Option.some.injEq,
      Variable.renameNamed_eq_self es]
end

/-! ## Collections -/

section Collections

variable {α : Type}

theorem map_eq_self {f : α → α} {as : List α} : as.map f = as ↔ ∀ a ∈ as, f a = a := by
  conv_lhs => rhs; rw [← List.map_id as]
  exact List.map_inj_left

theorem option_map_eq_self {f : α → α} {a? : Option α} :
    a?.map f = a? ↔ ∀ a ∈ a?.toList, f a = a := by
  cases a? <;> simp

theorem mapValues_eq_self {f : α → α} {names : NameMap α} :
    names.mapValues f = names ↔ ∀ entry ∈ names, f entry.2 = entry.2 := by
  refine map_eq_self.trans (forall₂_congr fun entry _ => ?_)
  simp [Prod.ext_iff]

end Collections

/-! ## Objects -/

/-- The handles in a table of values. -/
def Value.handlesOfNames (names : NameMap Value) : List Handle :=
  names.flatMap fun entry => entry.2.handles

theorem Value.mapValues_eq_self {names : NameMap Value} :
    names.mapValues (Value.rename E) = names ↔ E.Leaves (Value.handlesOfNames names) := by
  simp only [StubInference.mapValues_eq_self, Value.rename_eq_self, Value.handlesOfNames,
    Renaming.leaves_flatMap]

theorem Variable.mapValues_eq_self {names : NameMap Variable} :
    names.mapValues (Variable.rename E) = names ↔ E.Leaves (Variable.handlesOfNamed names) := by
  rw [← Variable.renameNamed_eq, Variable.renameNamed_eq_self]

theorem Variable.map_eq_self {vs : List Variable} :
    vs.map (Variable.rename E) = vs ↔ E.Leaves (Variable.handlesOfAll vs) := by
  rw [← Variable.renameAll_eq, Variable.renameAll_eq_self]

/-- The handles in the surroundings of code: its tables of names. -/
def Surroundings.handles (around : Surroundings) : List Handle :=
  .scope around.globals :: around.enclosing.map .scope

/-- The handles in arguments. -/
def Args.handles (args : Args) : List Handle :=
  Variable.handlesOfAll args.positional ++ Variable.handlesOfNamed args.keywords ++
    args.star.toList.flatMap Variable.handles ++ args.starStar.toList.flatMap Variable.handles ++
    args.frame.toList.flatMap Surroundings.handles

/-- The handles in what only a built class has. -/
def ClassBody.handles (body : ClassBody) : List Handle :=
  Value.handlesOfNames body.keywords ++ body.functions.map .function ++ body.classes.map .cls

/-- The handles in a class. -/
def ClassInfo.handles (info : ClassInfo) : List Handle :=
  info.bases.map .cls ++ Value.handlesOfNames info.members ++ info.metaclass.toList.map .cls ++
    info.body.toList.flatMap ClassBody.handles

/-- The handles in a function: in its defaults, and in the tables that it sees or the value that it is
declared to return. -/
def FunctionInfo.handles : FunctionInfo → List Handle
  | .interpreted function =>
    Variable.handlesOfNamed function.signature.defaults ++ function.surroundings.handles
  | .declared function =>
    Variable.handlesOfNamed function.signature.defaults ++ function.returns.handles

/-- The handles in an instance. -/
def InstanceInfo.handles (inst : InstanceInfo) : List Handle :=
  .cls inst.cls :: Variable.handlesOfNamed inst.members

/-- The handles in locals and on a stack. -/
def BlockState.handles (state : BlockState) : List Handle :=
  Variable.handlesOfNamed state.locals ++ Variable.handlesOfAll state.stack

/-- The handles in a frame, wherever it stands. -/
def Frame.handles (frame : Frame) : List Handle :=
  frame.function.toList.map .function ++
    (.scope frame.globals :: frame.enclosing.map .scope) ++ [.scope frame.cells] ++
    frame.operands.frame.handles ++ Variable.handlesOfNamed frame.initialLocals ++
    frame.pending.flatMap (fun entry => entry.2.handles) ++ frame.state.handles ++
    frame.functions.map .function ++ frame.classes.map .cls ++
    Variable.handlesOfNamed frame.finalLocals ++ Variable.handlesOfAll frame.returns

theorem Surroundings.rename_eq_self (around : Surroundings) :
    around.rename E = around ↔ E.Leaves around.handles := by
  obtain ⟨name, globals, enclosing⟩ := around
  simp [Surroundings.rename, Surroundings.handles, map_eq_self, Renaming.leaves_map, Handle.rename]

theorem Args.rename_eq_self (args : Args) : args.rename E = args ↔ E.Leaves args.handles := by
  obtain ⟨positional, keywords, star, starStar, frame⟩ := args
  simp only [Args.rename, Args.handles, Args.mk.injEq, Variable.map_eq_self,
    Variable.mapValues_eq_self, option_map_eq_self, Variable.rename_eq_self,
    Surroundings.rename_eq_self, Renaming.leaves_append, Renaming.leaves_flatMap, and_assoc]

theorem ClassBody.rename_eq_self (body : ClassBody) :
    body.rename E = body ↔ E.Leaves body.handles := by
  obtain ⟨keywords, functions, classes⟩ := body
  simp only [ClassBody.rename, ClassBody.handles, ClassBody.mk.injEq, Value.mapValues_eq_self,
    map_eq_self, Renaming.leaves_append, Renaming.leaves_map, Handle.rename, Handle.cls.injEq,
    Handle.function.injEq, and_assoc]

theorem ClassInfo.rename_eq_self (info : ClassInfo) :
    info.rename E = info ↔ E.Leaves info.handles := by
  obtain ⟨name, module, bases, members, metaclass, body⟩ := info
  simp only [ClassInfo.rename, ClassInfo.handles, ClassInfo.mk.injEq, Value.mapValues_eq_self,
    map_eq_self, option_map_eq_self, ClassBody.rename_eq_self, Renaming.leaves_append,
    Renaming.leaves_map, Renaming.leaves_flatMap, Handle.rename, Handle.cls.injEq, true_and,
    and_assoc]

theorem Signature.rename_eq_self (sig : Signature) :
    sig.rename E = sig ↔ E.Leaves (Variable.handlesOfNamed sig.defaults) := by
  obtain ⟨name, params, posOnlyCount, kwOnly, varArgs, varKeywords, defaults⟩ := sig
  simp only [Signature.rename, Signature.mk.injEq, Variable.mapValues_eq_self, true_and]

theorem FunctionInfo.rename_eq_self (info : FunctionInfo) :
    info.rename E = info ↔ E.Leaves info.handles := by
  rcases info with ⟨⟨⟩⟩ | ⟨⟨⟩⟩ <;>
    simp [FunctionInfo.rename, FunctionInfo.handles, InterpretedFunction.rename,
      DeclaredFunction.rename, Signature.rename_eq_self, Surroundings.rename_eq_self,
      Value.rename_eq_self]

theorem InstanceInfo.rename_eq_self (inst : InstanceInfo) :
    inst.rename E = inst ↔ E.Leaves inst.handles := by
  obtain ⟨cls, members⟩ := inst
  simp [InstanceInfo.rename, InstanceInfo.handles, Variable.mapValues_eq_self, Handle.rename]

theorem BlockState.rename_eq_self (state : BlockState) :
    state.rename E = state ↔ E.Leaves state.handles := by
  obtain ⟨locals, stack⟩ := state
  simp [BlockState.rename, BlockState.handles, Variable.mapValues_eq_self, Variable.map_eq_self]

theorem Operands.rename_eq_self (operands : Operands) :
    operands.rename E = operands ↔ E.Leaves operands.frame.handles := by
  obtain ⟨frame, names⟩ := operands
  simp [Operands.rename, Surroundings.rename_eq_self]

theorem Frame.rename_eq_self (frame : Frame) : frame.rename E = frame ↔ E.Leaves frame.handles := by
  have pending : frame.pending.map (Prod.map id (BlockState.rename E)) = frame.pending ↔
      E.Leaves (frame.pending.flatMap fun entry => entry.2.handles) := by
    simp [map_eq_self, Renaming.leaves_flatMap, Prod.ext_iff, BlockState.rename_eq_self]
  have returned : frame.returns.map (Variable.rename E) = frame.returns ↔
      E.Leaves (Variable.handlesOfAll frame.returns) := Variable.map_eq_self
  obtain ⟨name, kind, code, site, function, globals, enclosing, cells, operands, initialLocals,
    entries, state, block, line, functions, classes, finalLocals, returns, finished⟩ := frame
  simp only [Frame.rename, Frame.handles, Frame.mk.injEq, pending, returned, map_eq_self,
    option_map_eq_self, Variable.mapValues_eq_self, Operands.rename_eq_self, BlockState.rename_eq_self, Renaming.leaves_append,
    Renaming.leaves_cons, Renaming.leaves_nil, Renaming.leaves_map, Handle.rename,
    Handle.cls.injEq, Handle.function.injEq, Handle.scope.injEq, true_and, and_true, and_assoc]

/-! ## The whole state -/

/-- The handles in the objects of a heap. -/
def Heap.handles (heap : Heap) : List Handle :=
  heap.classes.toList.flatMap ClassInfo.handles ++
    heap.functions.toList.flatMap FunctionInfo.handles ++
    heap.instances.toList.flatMap InstanceInfo.handles ++
    heap.frames.toList.flatMap Frame.handles ++
    heap.scopes.toList.flatMap Variable.handlesOfNamed

/-- The handles in a state, those of the functions that are running included. -/
def Context.handles (ctx : Context) : List Handle :=
  ctx.heap.handles ++ ctx.callStack.map .function

instance (heap heap' : Heap) : Decidable (heap.SizeLE heap') :=
  decidable_of_iff (heap.classes.size ≤ heap'.classes.size ∧
    heap.functions.size ≤ heap'.functions.size ∧ heap.instances.size ≤ heap'.instances.size ∧
    heap.frames.size ≤ heap'.frames.size ∧ heap.scopes.size ≤ heap'.scopes.size)
    ⟨fun ⟨c, f, i, r, s⟩ => ⟨c, f, i, r, s⟩, fun ⟨c, f, i, r, s⟩ => ⟨c, f, i, r, s⟩⟩

/-- Every handle stands for an object of the heap. The interpreter itself names the builtins, so
these have to be there too. -/
def Heap.HasAll (heap : Heap) (handles : List Handle) : Prop :=
  Builtins.heap.SizeLE heap ∧ ∀ h ∈ handles, heap.Has h

instance (heap : Heap) (handles : List Handle) : Decidable (heap.HasAll handles) :=
  instDecidableAnd

section Fixes

variable {heap heap' : Heap}

theorem Heap.SizeLE.has (h : heap.SizeLE heap') {handle : Handle} (here : heap.Has handle) :
    heap'.Has handle := by
  cases handle with
  | cls id => exact Nat.lt_of_lt_of_le here h.classes
  | function id => exact Nat.lt_of_lt_of_le here h.functions
  | object id => exact Nat.lt_of_lt_of_le here h.instances
  | frame id => exact Nat.lt_of_lt_of_le here h.frames
  | scope id => exact Nat.lt_of_lt_of_le here h.scopes

theorem Renaming.Fixes.leaves (fixes : E.Fixes heap) {handles : List Handle}
    (h : ∀ handle ∈ handles, heap.Has handle) : E.Leaves handles := by
  intro handle hmem
  have here := h handle hmem
  cases handle with
  | cls id => exact congrArg Handle.cls (fixes.cls here)
  | function id => exact congrArg Handle.function (fixes.fn here)
  | object id => exact congrArg (Handle.object ⟨·⟩) (fixes.instances.move _ here)
  | frame id => exact congrArg (Handle.frame ⟨·⟩) (fixes.frames.move _ here)
  | scope id => exact congrArg (Handle.scope ⟨·⟩) (fixes.scopes.move _ here)

theorem Shift.lt_of_apart {size n : Nat} (h : (apart size).move n = n) : n < size := by
  by_contra absent
  have moved : skip size 1 n = n := h
  rw [skip, if_neg absent] at moved
  omega

/-- The renaming that leaves in place just what a heap holds tells what it holds. -/
theorem Renaming.has_of_leaves_apart {large : Builtins.heap.SizeLE heap} {handles : List Handle}
    (h : (apart heap large).Leaves handles) : ∀ handle ∈ handles, heap.Has handle := by
  intro handle hmem
  have same := h handle hmem
  cases handle with
  | cls id => exact Shift.lt_of_apart (congrArg ClassId.index (Handle.cls.inj same))
  | function id => exact Shift.lt_of_apart (congrArg FunctionId.index (Handle.function.inj same))
  | object id => exact Shift.lt_of_apart (congrArg InstanceId.index (Handle.object.inj same))
  | frame id => exact Shift.lt_of_apart (congrArg FrameId.index (Handle.frame.inj same))
  | scope id => exact Shift.lt_of_apart (congrArg ScopeId.index (Handle.scope.inj same))

/-- A heap holds what handles stand for just where no renaming moves them which leaves in place all
that the heap holds. -/
theorem Heap.has_iff_leaves (large : Builtins.heap.SizeLE heap) (handles : List Handle) :
    (∀ handle ∈ handles, heap.Has handle) ↔ ∀ E : Renaming, E.Fixes heap → E.Leaves handles :=
  ⟨fun h _ fixes => fixes.leaves h, fun h =>
    Renaming.has_of_leaves_apart (h _ (Renaming.fixes_apart heap large))⟩

theorem Shift.Fixes.matches_iff {α : Type} {shift : Shift} {rename : α → α} {objects : Array α}
    (fixes : shift.Fixes objects.size) :
    shift.Matches rename objects objects ↔ ∀ object ∈ objects.toList, rename object = object := by
  constructor
  · intro matched object hobject
    obtain ⟨n, hn, rfl⟩ := Array.mem_iff_getElem.mp (Array.mem_toList_iff.mp hobject)
    have entry := matched.entry n
    rw [fixes.move n hn, Array.getElem?_eq_getElem hn, Option.map_some, Option.some.injEq] at entry
    exact entry.symm
  · exact fun h => fixes.matches fun object hobject => h object (Array.mem_toList_iff.mpr hobject)

/-- A heap matches itself along a renaming that moves nothing which it names. -/
theorem Renaming.Fixes.heap_matches_iff (fixes : E.Fixes heap) :
    heap.Matches E heap ↔ E.Leaves heap.handles := by
  have parts : heap.Matches E heap ↔
      E.classes.Matches (ClassInfo.rename E) heap.classes heap.classes ∧
      E.functions.Matches (FunctionInfo.rename E) heap.functions heap.functions ∧
      E.instances.Matches (InstanceInfo.rename E) heap.instances heap.instances ∧
      E.frames.Matches (Frame.rename E) heap.frames heap.frames ∧
      E.scopes.Matches (NameMap.mapValues (Variable.rename E)) heap.scopes heap.scopes :=
    ⟨fun ⟨c, f, i, r, s⟩ => ⟨c, f, i, r, s⟩, fun ⟨c, f, i, r, s⟩ => ⟨c, f, i, r, s⟩⟩
  rw [parts, fixes.classes.matches_iff, fixes.functions.matches_iff, fixes.instances.matches_iff,
    fixes.frames.matches_iff, fixes.scopes.matches_iff]
  simp only [Heap.handles, Renaming.leaves_append, Renaming.leaves_flatMap,
    ClassInfo.rename_eq_self, FunctionInfo.rename_eq_self, InstanceInfo.rename_eq_self,
    Frame.rename_eq_self, Variable.mapValues_eq_self, and_assoc]

theorem Renaming.Fixes.matches_iff {ctx : Context} (fixes : E.Fixes ctx.heap) :
    ctx.Matches E ctx ↔ E.Leaves ctx.handles := by
  rw [Context.handles, Renaming.leaves_append, ← fixes.heap_matches_iff, Renaming.leaves_map]
  simp only [Handle.rename, Handle.function.injEq, ← map_eq_self]
  exact ⟨fun h => ⟨h.heap, h.callStack.symm⟩, fun h => ⟨h.1, rfl, h.2.symm⟩⟩

/-- A state names only what it holds just where there is nothing but objects of the heap behind its
handles. -/
theorem Context.closed_iff {ctx : Context} : ctx.Closed ↔ ctx.heap.HasAll ctx.handles := by
  constructor
  · intro closed
    refine ⟨closed.large, (Heap.has_iff_leaves closed.large _).mpr fun E fixes => ?_⟩
    exact fixes.matches_iff.mp (closed.named E fixes)
  · rintro ⟨large, here⟩
    exact ⟨large, fun E fixes => fixes.matches_iff.mpr (fixes.leaves here)⟩

end Fixes

end StubInference
