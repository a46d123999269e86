import StubInference.Proofs.Run.Agree
import StubInference.Proofs.Value.Confined

/-!
# What a run is confined to

A run executes the code that it finds in values and functions, and writes to the tables of names
that its frames know. A confinement says which code this may be and which entries of tables must
stay as they are.

## Main definitions

* `Confinement` — the code that may run, and the entries that are kept
* `Heap.Confined` — all objects of a heap hold such code only
* `Confinement.Holds` — a state of the analysis within the confinement

## Main results

* `Heap.Confined.addClass`, `Heap.Confined.addFunction`, `Heap.Confined.setAttribute` and the like —
  what keeps a heap confined
-/

namespace StubInference

/-- Whether a code object has an instruction that stores a global name. -/
def CodeOver.StoresGlobal {Constant : Type} (code : CodeOver Constant) (name : String) : Prop :=
  ∃ block ∈ code.blocks, ∃ instruction ∈ block, instruction.opcode = .storeGlobal name

/-- What a run is confined to. -/
structure Confinement where
  options : Options
  /-- The code that may run. -/
  code : CodeSite → Code → Prop
  constants : ∀ {site : CodeSite} {body : Code} {index : Nat} {literal : Literal}, code site body →
    body.literalAt site index = .ok literal → literal.Confined code
  /-- The tables of globals that functions know. -/
  isGlobals : ScopeId → Prop
  /-- How many tables there are before the run. -/
  base : Nat
  /-- The entries of tables that stay as they are. -/
  kept : ScopeId → String → Prop
  saved : ScopeId → String → Option Variable
  bounded : ∀ scope name, kept scope name → scope.index < base
  apart : ∀ site body scope name, code site body → isGlobals scope → body.StoresGlobal name →
    ¬ kept scope name

/-- The confinement to code that may run and to tables that functions may know, where no entry has
to stay as it is. -/
def Confinement.ofCode (options : Options) (code : CodeSite → Code → Prop)
    (constants : ∀ {site : CodeSite} {body : Code} {index : Nat} {literal : Literal},
      code site body → body.literalAt site index = .ok literal → literal.Confined code)
    (isGlobals : ScopeId → Prop) (base : Nat) : Confinement where
  options
  code
  constants
  isGlobals
  base
  kept _ _ := False
  saved _ _ := none
  bounded _ _ h := h.elim
  apart _ _ _ _ _ _ _ h := h

/-! ## Objects -/

variable {P : CodeSite → Code → Prop} {G : ScopeId → Prop}

/-- The members and keywords of a class are confined. -/
structure ClassInfo.Confined (P : CodeSite → Code → Prop) (info : ClassInfo) : Prop where
  members : NameMap.AllConfined P info.members
  keywords : ∀ body, info.body = some body → NameMap.AllConfined P body.keywords

/-- The code of a function, its globals, its defaults and what it is declared to return. -/
structure FunctionInfo.Confined (P : CodeSite → Code → Prop) (G : ScopeId → Prop)
    (info : FunctionInfo) : Prop where
  defaults : NameMap.Confined P info.signature.defaults
  interpreted : ∀ function, info = .interpreted function →
    P function.site function.code ∧ G function.surroundings.globals
  declared : ∀ function, info = .declared function → function.returns.Confined P

/-- What is read of a frame that has finished. -/
structure Frame.Gathered (P : CodeSite → Code → Prop) (frame : Frame) : Prop where
  code : P frame.site frame.code
  final : NameMap.Confined P frame.finalLocals
  returns : ∀ v ∈ frame.returns, v.Confined P

/-- Every object of a heap is confined. -/
structure Heap.Confined (P : CodeSite → Code → Prop) (G : ScopeId → Prop) (heap : Heap) :
    Prop where
  classes : ∀ id, (heap.classAt id).Confined P
  functions : ∀ id, (heap.functionAt id).Confined P G
  instances : ∀ id, NameMap.Confined P (heap.instanceAt id).members
  frames : ∀ frame ∈ heap.frames, frame.Gathered P
  scopes : ∀ id, NameMap.Confined P (heap.scopeAt id)

theorem Frame.Gathered.returned? {frame : Frame} {v : Variable} (h : frame.Gathered P)
    (hv : frame.returned? = some v) : v.Confined P := by
  unfold Frame.returned? at hv
  split at hv
  · cases hv
  · cases hv
    exact .merge h.returns

/-! ## Tables of objects -/

section Arrays

variable {α : Type} {Q : α → Prop} {objects : Array α} {fallback object : α}

theorem forall_getD_push (h : ∀ i, Q (objects.getD i fallback)) (hobject : Q object) (i : Nat) :
    Q ((objects.push object).getD i fallback) := by
  have hi := h i
  rw [Array.getD_eq_getD_getElem?] at hi ⊢
  rw [Array.getElem?_push]
  split
  · exact hobject
  · exact hi

theorem forall_getD_modify {change : α → α} (h : ∀ i, Q (objects.getD i fallback))
    (hchange : ∀ a, Q a → Q (change a)) (place i : Nat) :
    Q ((objects.modify place change).getD i fallback) := by
  have hi := h i
  rw [Array.getD_eq_getD_getElem?] at hi ⊢
  rw [Array.getElem?_modify]
  split
  · cases hg : objects[i]? with
    | none => simpa [hg] using hi
    | some a => exact hchange a (by simpa [hg] using hi)
  · exact hi

end Arrays

namespace Heap.Confined

variable {heap : Heap}

theorem addClass {info : ClassInfo} (h : heap.Confined P G) (hinfo : info.Confined P) :
    (heap.addClass info).2.Confined P G :=
  { h with classes := fun id => forall_getD_push (fun i => h.classes ⟨i⟩) hinfo id.index }

theorem addFunction {info : FunctionInfo} (h : heap.Confined P G) (hinfo : info.Confined P G) :
    (heap.addFunction info).2.Confined P G :=
  { h with functions := fun id => forall_getD_push (fun i => h.functions ⟨i⟩) hinfo id.index }

theorem addInstance {info : InstanceInfo} (h : heap.Confined P G)
    (hinfo : NameMap.Confined P info.members) : (heap.addInstance info).2.Confined P G :=
  { h with
    instances := fun id => forall_getD_push (Q := fun info : InstanceInfo => NameMap.Confined P info.members)
      (fun i => h.instances ⟨i⟩) hinfo id.index }

theorem addFrame {frame : Frame} (h : heap.Confined P G) (hframe : frame.Gathered P) :
    (heap.addFrame frame).2.Confined P G :=
  { h with
    frames := fun other hother =>
      (Array.mem_push.mp hother).elim (h.frames other) fun e => e ▸ hframe }

theorem addScope {names : NameMap Variable} (h : heap.Confined P G)
    (hnames : NameMap.Confined P names) : (heap.addScope names).2.Confined P G :=
  { h with scopes := fun id => forall_getD_push (fun i => h.scopes ⟨i⟩) hnames id.index }

theorem modifyClass {change : ClassInfo → ClassInfo} (h : heap.Confined P G) (id : ClassId)
    (hchange : ∀ info : ClassInfo, info.Confined P → (change info).Confined P) :
    (heap.modifyClass id change).Confined P G :=
  { h with
    classes := fun other => forall_getD_modify (fun i => h.classes ⟨i⟩) hchange id.index other.index }

theorem modifyInstance {change : InstanceInfo → InstanceInfo} (h : heap.Confined P G)
    (id : InstanceId) (hchange : ∀ info : InstanceInfo, NameMap.Confined P info.members →
      NameMap.Confined P (change info).members) : (heap.modifyInstance id change).Confined P G :=
  { h with
    instances := fun other =>
      forall_getD_modify (Q := fun info : InstanceInfo => NameMap.Confined P info.members)
        (fun i => h.instances ⟨i⟩) hchange id.index other.index }

theorem modifyScope {change : NameMap Variable → NameMap Variable} (h : heap.Confined P G)
    (id : ScopeId)
    (hchange : ∀ names, NameMap.Confined P names → NameMap.Confined P (change names)) :
    (heap.modifyScope id change).Confined P G :=
  { h with
    scopes := fun other => forall_getD_modify (fun i => h.scopes ⟨i⟩) hchange id.index other.index }

/-- A frame that is looked up is one that has finished, or one that never ran. -/
theorem frameAt (h : heap.Confined P G) (id : FrameId) :
    NameMap.Confined P (heap.frameAt id).finalLocals ∧
      ∀ v, (heap.frameAt id).returned? = some v → v.Confined P := by
  unfold Heap.frameAt
  rw [Array.getD_eq_getD_getElem?]
  cases hf : heap.frames[id.index]? with
  | none => exact ⟨.nil, fun v hv => (by cases hv)⟩
  | some frame =>
    have hframe := h.frames frame (Array.mem_of_getElem? hf)
    exact ⟨hframe.final, fun v hv => hframe.returned? hv⟩

theorem instantiate (h : heap.Confined P G) (cls : ClassId) :
    (heap.instantiate cls).1.Confined P ∧ (heap.instantiate cls).2.Confined P G := by
  unfold Heap.instantiate
  split
  · exact ⟨.instanceObject _, h.addInstance .nil⟩
  · exact ⟨.frozen cls, h⟩

end Heap.Confined

theorem Heap.scopes_instantiate (heap : Heap) (cls : ClassId) :
    (heap.instantiate cls).2.scopes = heap.scopes := by
  unfold Heap.instantiate
  split <;> rfl

/-! ## States of the analysis -/

/-- A state of the analysis within a confinement, with the given functions running. -/
structure Confinement.Holds (K : Confinement) (stack : List FunctionId) (ctx : Context) :
    Prop where
  heap : ctx.heap.Confined K.code K.isGlobals
  options : ctx.options = K.options
  callStack : ctx.callStack = stack
  base : K.base ≤ ctx.heap.scopes.size
  kept : ∀ scope name, K.kept scope name →
    (ctx.heap.scopeAt scope).get? name = K.saved scope name

namespace Confinement.Holds

variable {K : Confinement} {stack : List FunctionId} {ctx : Context}

/-- Another heap with the same tables of names. -/
theorem withHeap {heap : Heap} (h : K.Holds stack ctx) (hheap : heap.Confined K.code K.isGlobals)
    (hscopes : heap.scopes = ctx.heap.scopes) : K.Holds stack { ctx with heap } where
  heap := hheap
  options := h.options
  callStack := h.callStack
  base := hscopes ▸ h.base
  kept := fun scope name hkept => by
    have hscope : heap.scopeAt scope = ctx.heap.scopeAt scope := by
      unfold Heap.scopeAt
      rw [hscopes]
    rw [hscope]
    exact h.kept scope name hkept

/-- A new table comes behind those with kept entries. -/
theorem addScope {names : NameMap Variable} (h : K.Holds stack ctx)
    (hnames : NameMap.Confined K.code names) :
    K.Holds stack { ctx with heap := (ctx.heap.addScope names).2 } where
  heap := h.heap.addScope hnames
  options := h.options
  callStack := h.callStack
  base := by
    have hbase := h.base
    simp only [Heap.addScope, Array.size_push]
    omega
  kept := fun scope name hkept => by
    have hlt : scope.index < ctx.heap.scopes.size :=
      Nat.lt_of_lt_of_le (K.bounded scope name hkept) h.base
    have hne : scope.index ≠ ctx.heap.scopes.size := by omega
    rw [← h.kept scope name hkept]
    unfold Heap.scopeAt Heap.addScope
    rw [Array.getD_eq_getD_getElem?, Array.getD_eq_getD_getElem?, Array.getElem?_push, if_neg hne]

/-- A change of a table that leaves its kept entries as they are. -/
theorem modifyScope {change : NameMap Variable → NameMap Variable} {id : ScopeId}
    (h : K.Holds stack ctx)
    (hchange : ∀ names, NameMap.Confined K.code names → NameMap.Confined K.code (change names))
    (hkept : ∀ names name, K.kept id name → (change names).get? name = names.get? name) :
    K.Holds stack { ctx with heap := ctx.heap.modifyScope id change } where
  heap := h.heap.modifyScope id hchange
  options := h.options
  callStack := h.callStack
  base := by simpa [Heap.modifyScope] using h.base
  kept := fun scope name hk => by
    rw [← h.kept scope name hk]
    unfold Heap.scopeAt Heap.modifyScope
    rw [Array.getD_eq_getD_getElem?, Array.getD_eq_getD_getElem?, Array.getElem?_modify]
    split
    case isTrue heq =>
      obtain rfl : id = scope := by
        obtain ⟨i⟩ := id
        obtain ⟨j⟩ := scope
        exact congrArg ScopeId.mk heq
      cases ctx.heap.scopes[id.index]? with
      | none => rfl
      | some names => exact hkept names name hk
    case isFalse => rfl

theorem record (h : K.Holds stack ctx) (log : Log) (position : Position) :
    K.Holds stack { ctx with log, position } :=
  ⟨h.heap, h.options, h.callStack, h.base, h.kept⟩

end Confinement.Holds

end StubInference
