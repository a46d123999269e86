import StubInference.Proofs.Bytecode.Nested
import StubInference.Proofs.Run.History
import StubInference.Proofs.Run.Tables

/-!
# Stores at joins

Locals travel along the paths through the code and are joined where paths meet. The globals of a
module and the cells of a frame do not: they are tables that every store writes to at once, in the
order in which blocks are executed. So a join keeps what each branch stored in the locals, while in
the tables the branch that comes last in the code wins.

## Main definitions

* `Frame.Opening` — the frame of a module before it runs
* `Brought` — what a module stores under a name and brings to a return
* `Frame.Ready` — a frame about to run in the analysis of a module
* `GlobalsHold` — the globals hold what the locals of a module end with
* `CellsHold` — cells yield what every path to an instruction that reads them stored last
* `TablesHoldAsLeft` — the tables hold these just where what is left in them does

## Main results

* `Frame.Opening.comesFrom_brought`, `Frame.Opening.holding_of_brought` — the locals of a module end
  with what is brought to a return
* `Frame.Ready.globalsHold_iff`, `Frame.Ready.cellsHold_iff` — when the tables of a frame hold what
  is stored on the paths
* `Frame.Ready.written_eq`, `Frame.Ready.global_eq`, `Frame.Ready.loaded_eq` — what the tables hold
* `Machine.storesHold_iff` — when the tables of a module hold what its branches stored
-/

namespace StubInference

open Step FrameStep

/-! ## Module frames -/

/-- What a module stores under a name and brings to a return: the last store on a path there, or
what the name is bound to from the start. -/
inductive Brought (start : Frame) (visits : List Visit) (name : String) (v : Variable) : Prop
  | initial {block : Block} (bound : start.initialLocals.get? name = some v)
      (found : start.code.blocks[0]? = some block)
      (returns : Place.Returns start.code.blocks (·.Leaves name) ⟨0, block⟩)
  | stored {visit : Visit} (visited : visit ∈ visits) (stores : visit.Stores name v)
      (returns : visit.behind.Returns start.code.blocks (·.Leaves name))

/-- The frame of a module before it runs: it has gathered nothing, and its initial locals bind no
name twice. -/
structure Frame.Opening (start : Frame) : Prop where
  kind : start.kind = .module
  locals : start.state.locals = []
  pending : start.pending = []
  final : start.finalLocals = []
  distinct : start.initialLocals.names.Nodup

namespace Frame.Opening

variable {start : Frame} {ctx : Context} {ev : Evaluator} {visits : List Visit} {t : Execution}
  {name : String} {v : Variable}

/-- Only the first block is known to be entered at the start. -/
theorem entering_pending (opening : start.Opening) :
    (start.entering ctx).frame.pending = [(0, .ofLocals start.initialLocals)] := by
  simp [Frame.entering, startPending, opening.pending]

theorem tidy (opening : start.Opening) : (start.entering ctx).frame.Tidy where
  module := opening.kind
  locals := by
    change start.state.locals.names.Nodup
    rw [opening.locals]
    exact List.nodup_nil
  pending := by
    rw [opening.entering_pending]
    simpa [BlockState.ofLocals] using opening.distinct
  final := by
    change start.finalLocals.names.Nodup
    rw [opening.final]
    exact List.nodup_nil

/-- What a module ends with under a name is what its stores bring to a return. -/
theorem comesFrom_brought (opening : start.Opening)
    (course : Course ev start.code.blocks (.before 0) (start.entering ctx) visits t)
    (name : String) : ComesFrom (Brought start visits name) (t.frame.finalLocals.get? name) := by
  refine course.final_traced opening.tidy trivial ⟨?_, ?_⟩ nofun ?_
  -- the only entry state at the start is that of the first block, with the initial locals
  · rw [opening.entering_pending]
    simp only [List.forall_mem_singleton]
    exact fun block found returns u hu => ComesFrom.of_mem (.initial hu found returns) u rfl
  · change ComesFrom _ (start.finalLocals.get? name)
    rw [opening.final]
    exact comesFrom_none
  · exact fun visit visited v stores returns => .stored visited stores returns

theorem holding_of_brought (opening : start.Opening)
    (course : Course ev start.code.blocks (.before 0) (start.entering ctx) visits t)
    (brought : Brought start visits name v) : Holding v (t.frame.finalLocals.get? name) := by
  cases brought with
  | @initial block bound found returns =>
    refine course.final_owed opening.tidy trivial
      (.inr ⟨0, block, Nat.le_refl 0, found, returns, .ofLocals start.initialLocals, ?_, ?_⟩)
    · simp [opening.entering_pending]
    · exact ⟨v, bound, .refl v⟩
  | stored visited stores returns =>
    exact course.final_includes opening.tidy trivial visited stores returns

end Frame.Opening

/-! ## Frames about to run -/

/-- A frame about to run where calls run certain code only: that of the functions there are, and of
those that this code defines. The cells of the frame are its own: they are empty, and no function
knows them as globals. -/
structure Frame.Ready (callable : List Code) (start : Frame) (ctx : Context) : Prop where
  started : start = .start start.name start.kind start.code start.site start.function start.globals
    start.enclosing start.cells start.initialLocals
  defines : ∀ body ∈ start.code :: callable, body.inner ⊆ callable
  known : ctx.heap.Confined (fun _ body => body ∈ callable)
    fun scope => scope.index < ctx.heap.scopes.size ∧ scope ≠ start.cells
  globals : start.globals.index < ctx.heap.scopes.size
  cells : start.cells.index < ctx.heap.scopes.size
  distinct : start.globals ≠ start.cells
  empty : ctx.heap.scopeAt start.cells = []
  initial : NameMap.Confined (fun _ body => body ∈ callable) start.initialLocals
  /-- The names that a module starts with are both locals and globals. -/
  module : start.kind = .module → ctx.heap.scopeAt start.globals = start.initialLocals ∧
    start.initialLocals.names.Nodup

/-! ## What is claimed -/

/-- The globals hold at least every value that the locals end with under a name. -/
def GlobalsHold (name : String) (done : Frame) (ctx : Context) : Prop :=
  ∀ v, done.finalLocals.get? name = some v → Holding v (ctx.entry done.globals name)

/-- Where a cell is read, a given entry holds at least every value that a path there stored last. -/
def CellsHold (name : String) (blocks : List Block) (visits : List Visit)
    (entry : List Visit → Visit → Option Variable) : Prop :=
  ∀ earlier load later, visits = earlier ++ load :: later →
    load.instruction.opcode = .loadDeref name → ∀ store ∈ earlier, ∀ v,
    store.instruction.opcode = .storeDeref name → store.before.frame.state.stack.head? = some v →
    store.behind.Reaches blocks (fun op => ¬ op.BindsCell name) load.place →
    Holding v (entry earlier load)

/-- The tables hold what the branches of a module stored just where what is left in them in the order
of the blocks does. -/
structure TablesHoldAsLeft (start : Frame) (visits : List Visit) (done : Frame) (ctx : Context) :
    Prop where
  /-- Instructions that bind a name and calls decide what the globals hold. -/
  globals (name : String) : GlobalsHold name done ctx ↔ ∀ v, Brought start visits name v →
    Holding v (leftBy (Visit.written? start.globals name) (start.initialLocals.get? name) visits)
  /-- Calls do not where no code that is called stores the name globally. -/
  spared (name : String) (spared : ∀ body ∈ start.code.inner, ¬ body.StoresGlobal name) :
    GlobalsHold name done ctx ↔ ∀ v, Brought start visits name v →
      Holding v (leftBy (Visit.binding? name) (start.initialLocals.get? name) visits)
  /-- The store that comes last in the code decides what a cell yields. -/
  cells (name : String) :
    CellsHold name start.code.blocks visits (fun _ load => load.after.frame.state.stack.head?) ↔
      CellsHold name start.code.blocks visits
        fun earlier _ => leftBy (Visit.cellBinding? name) none earlier

/-! ## The run of a ready frame -/

section Ready

variable {callable : List Code} {start done : Frame} {ctx ctx' : Context} {depth : Nat}

namespace Frame.Ready

/-- Constants of the frame's code and of code that calls run hold code that calls run. -/
theorem constants (ready : start.Ready callable ctx) {body : Code}
    (known : body ∈ start.code :: callable) {site : CodeSite} {index : Nat} {literal : Literal}
    (hl : body.literalAt site index = .ok literal) :
    literal.Confined fun _ body => body ∈ callable :=
  Code.confined_inner (fun _ hinner _ => ready.defines body known hinner) hl

/-- What a frame that is ready is confined to. -/
def confinement (ready : start.Ready callable ctx) : Confinement :=
  .ofCode ctx.options (fun _ body => body ∈ callable)
    (fun known => ready.constants (List.mem_cons_of_mem _ known))
    (fun scope => scope.index < ctx.heap.scopes.size ∧ scope ≠ start.cells) ctx.heap.scopes.size

theorem confined (ready : start.Ready callable ctx) {K : Confinement} (admitted : start.Admitted K)
    (initial : NameMap.Confined K.code start.initialLocals) : start.Confined K start := by
  rw [ready.started] at admitted ⊢
  exact Frame.confined_start admitted initial

theorem within (ready : start.Ready callable ctx) :
    ready.confinement.Within start ctx.callStack (start.entering ctx) := by
  have admitted : start.Admitted ready.confinement :=
    ⟨ready.constants List.mem_cons_self, ready.globals, ready.distinct⟩
  have confined : start.Confined ready.confinement start := ready.confined admitted ready.initial
  refine ⟨{ confined with pending := ?_ }, ready.known, rfl, rfl, Nat.le_refl _, fun _ _ h => h.elim⟩
  refine List.forall_mem_cons.mpr ⟨⟨confined.initial, by simp [BlockState.ofLocals]⟩, ?_⟩
  exact fun entry hentry => confined.pending entry (List.mem_of_mem_filter hentry)

theorem opening (ready : start.Ready callable ctx) (kind : start.kind = .module) : start.Opening := by
  refine ⟨kind, ?_, ?_, ?_, (ready.module kind).2⟩ <;>
  · rw [ready.started]
    rfl

/-- The globals hold what the locals end with where they hold what stores bring to a return. -/
theorem globalsHold_iff (ready : start.Ready callable ctx) (kind : start.kind = .module)
    {visits : List Visit} (visited : start.VisitedAs (.atDepth depth) ctx visits done ctx')
    (name : String) : GlobalsHold name done ctx' ↔
      ∀ v, Brought start visits name v → Holding v (ctx'.entry done.globals name) := by
  obtain ⟨last, course, rfl⟩ := visited
  constructor
  · intro hold v brought
    obtain ⟨u, hu, includes⟩ := (ready.opening kind).holding_of_brought course brought
    obtain ⟨w, hw, more⟩ := hold u hu
    exact ⟨w, hw, more.trans includes⟩
  · intro hold u hu
    obtain ⟨⟨v, brought⟩, values⟩ := (ready.opening kind).comesFrom_brought course name u hu
    obtain ⟨w, hw, -⟩ := hold v brought
    refine ⟨w, hw, fun a ha => ?_⟩
    obtain ⟨v, brought, hav⟩ := values a ha
    obtain ⟨w', hw', includes⟩ := hold v brought
    obtain rfl := Option.some.inj (hw.symm.trans hw')
    exact includes a hav

/-- What is left under a global name, if every instruction leaves there what it is said to. -/
theorem left_eq (ready : start.Ready callable ctx) (kind : start.kind = .module)
    {visits : List Visit} (visited : start.VisitedAs (.atDepth depth) ctx visits done ctx')
    {name : String} {bind : Visit → Option (Option Variable)}
    (binds : ∀ (index : Nat) (instruction : Instruction) (rest : List Instruction)
      (s u : Execution), ready.confinement.Within start ctx.callStack s →
      FrameStep.perform (.atDepth depth) instruction.opcode s = (.ok (), u) →
      u.context.entry start.globals name =
        (bind ⟨index, instruction, rest, s, u⟩).getD (s.context.entry start.globals name)) :
    ctx'.entry done.globals name = leftBy bind (start.initialLocals.get? name) visits := by
  obtain ⟨last, course, rfl⟩ := visited
  obtain ⟨within, entry, -⟩ := course.fills ready.within (fun _ _ h => h) binds
  have initial : (start.entering ctx).context.entry start.globals name =
      start.initialLocals.get? name := by
    rw [← (ready.module kind).1]
    rfl
  change ctx'.entry last.globals name = _
  rw [within.1.globals, entry, initial]

/-- A global name is bound to what the last instruction that binds it or makes a call left there, in
the order of the blocks. -/
theorem written_eq (ready : start.Ready callable ctx) (kind : start.kind = .module)
    {visits : List Visit} (visited : start.VisitedAs (.atDepth depth) ctx visits done ctx')
    (name : String) : ctx'.entry done.globals name =
      leftBy (Visit.written? start.globals name) (start.initialLocals.get? name) visits :=
  ready.left_eq kind visited fun _ _ _ _ _ within performed =>
    perform_written within kind ready.globals ready.cells ready.distinct.symm performed

/-- Where no code that calls run stores the name globally, it is bound to what the last instruction
that binds it left there. -/
theorem global_eq (ready : start.Ready callable ctx) (kind : start.kind = .module)
    {visits : List Visit} (visited : start.VisitedAs (.atDepth depth) ctx visits done ctx')
    {name : String} (spared : ∀ body ∈ callable, ¬ body.StoresGlobal name) :
    ctx'.entry done.globals name =
      leftBy (Visit.binding? name) (start.initialLocals.get? name) visits :=
  ready.left_eq kind visited fun _ _ _ _ _ within performed =>
    perform_global within kind ready.globals ready.cells ready.distinct.symm
      (fun _ body hbody => spared body hbody) performed

/-- What an instruction that reads a cell puts on the stack is what the last one that bound the cell
left there, in the order of the blocks. -/
theorem loaded_eq (ready : start.Ready callable ctx) {visits : List Visit}
    (visited : start.VisitedAs (.atDepth depth) ctx visits done ctx') {name : String}
    {earlier later : List Visit} {load store : Visit} (split : visits = earlier ++ load :: later)
    (loads : load.instruction.opcode = .loadDeref name) (before : store ∈ earlier)
    (stores : store.instruction.opcode = .storeDeref name) :
    load.after.frame.state.stack.head? = leftBy (Visit.cellBinding? name) none earlier := by
  obtain ⟨last, course, rfl⟩ := visited
  have unknown : ¬ ready.confinement.isGlobals start.cells :=
    fun known => known.2 rfl
  obtain ⟨-, -, entries⟩ := course.fills ready.within (fun _ _ h => h)
    fun index instruction rest s u within performed =>
      perform_cell within ready.cells ready.distinct unknown performed
  obtain ⟨within, entry⟩ := entries earlier load later split
  have empty : (start.entering ctx).context.entry start.cells name = none := by
    change (ctx.heap.scopeAt start.cells).get? name = none
    rw [ready.empty]
    rfl
  rw [empty] at entry
  -- the store ahead of the read has bound the cell, and no instruction unbinds one
  have bound : leftBy (Visit.cellBinding? name) none earlier ≠ none := by
    refine leftBy_ne_none (fun visit hvisit => ?_) (.inr ⟨store, before, ?_⟩)
    · exact Visit.cellBinding?_ne name (course.performed (by simp [split, hvisit]))
    · simp [Visit.cellBinding?, stores]
  obtain ⟨v, hv⟩ := Option.ne_none_iff_exists'.mp bound
  have performed : perform (.atDepth depth) load.instruction.opcode load.before =
      (.ok (), load.after) := course.performed (by simp [split])
  rw [loads] at performed
  rw [hv]
  exact perform_loadDeref (by rw [within.1.cells, entry, hv]) performed

/-- Cells yield what every path stored last where the store that comes last in the code does. -/
theorem cellsHold_iff (ready : start.Ready callable ctx) {visits : List Visit}
    (visited : start.VisitedAs (.atDepth depth) ctx visits done ctx') (name : String) :
    CellsHold name start.code.blocks visits (fun _ load => load.after.frame.state.stack.head?) ↔
      CellsHold name start.code.blocks visits
        fun earlier _ => leftBy (Visit.cellBinding? name) none earlier := by
  have same : ∀ {earlier load later store}, visits = earlier ++ load :: later →
      load.instruction.opcode = .loadDeref name → store ∈ earlier →
      store.instruction.opcode = .storeDeref name → load.after.frame.state.stack.head? =
        leftBy (Visit.cellBinding? name) none earlier := ready.loaded_eq visited
  constructor
  · intro hold earlier load later split loads store before v stores top path
    have yields : Holding v load.after.frame.state.stack.head? :=
      hold earlier load later split loads store before v stores top path
    rwa [same split loads before stores] at yields
  · intro hold earlier load later split loads store before v stores top path
    change Holding v load.after.frame.state.stack.head?
    rw [same split loads before stores]
    exact hold earlier load later split loads store before v stores top path

/-- The globals and cells of a module hold what its branches stored where what is left there does. -/
theorem tablesHoldAsLeft (ready : start.Ready start.code.inner ctx) (kind : start.kind = .module)
    {visits : List Visit} (visited : start.VisitedAs (.atDepth depth) ctx visits done ctx') :
    TablesHoldAsLeft start visits done ctx' where
  globals name := by
    rw [← ready.written_eq kind visited name]
    exact ready.globalsHold_iff kind visited name
  spared name spared := by
    rw [← ready.global_eq kind visited spared]
    exact ready.globalsHold_iff kind visited name
  cells := ready.cellsHold_iff visited

end Frame.Ready

end Ready

/-! ## Modules -/

theorem Builtins.nodup_moduleGlobals :
    (NameMap.names (Builtins.moduleGlobals.mapValues Value.var)).Nodup := by decide

theorem Frame.opening_forModule {code : Code} {site : CodeSite} {start : Frame} {ctx ctx' : Context}
    (h : Frame.forModule code site ctx = (.ok start, ctx')) : start.Opening ∧ start.code = code := by
  cases h
  exact ⟨⟨rfl, rfl, rfl, rfl, Builtins.nodup_moduleGlobals⟩, rfl⟩

/-- The frame of a module is ready in a fresh state. -/
theorem Frame.ready_forModule {code : Code} {site : CodeSite} {start : Frame} {ctx ctx' : Context}
    (heap : ctx.heap = Builtins.heap) (h : Frame.forModule code site ctx = (.ok start, ctx')) :
    start.Ready code.inner ctx' ∧ start.kind = .module ∧ start.code = code := by
  obtain ⟨options, _, log, callStack, position, roots⟩ := ctx
  cases heap
  cases h
  exact ⟨
    { started := rfl
      defines := List.forall_mem_cons.mpr ⟨List.Subset.refl _, fun _ hbody _ hinner =>
        Code.inner_subset hbody (List.mem_cons_of_mem _ hinner)⟩
      known := (Builtins.confined_heap.addScope Builtins.confined_moduleGlobals).addScope .nil
      globals := Nat.zero_lt_two
      cells := Nat.one_lt_two
      distinct := fun same => Nat.zero_ne_one (congrArg ScopeId.index same)
      empty := rfl
      initial := Builtins.confined_moduleGlobals
      module := fun _ => ⟨rfl, Builtins.nodup_moduleGlobals⟩ }, rfl, rfl⟩

namespace Machine

/-- When the tables of a module hold what its branches stored. The globals hold what the locals end
with under a name just where they do after the instruction that comes last in the order of the blocks
of those that bind it or make a call, and no call matters where no function that the module defines
stores the name globally. A cell yields what every path stored last just where the store that comes
last in the order of the blocks does. -/
theorem storesHold_iff {options : Options} {code : Code} {depth : Nat} {id : FrameId} {m : Machine}
    (run : runModuleWith (.atDepth depth) code (.new options) = (.ok id, m)) :
    ∃ start ctx ctx' visits, start.code = code ∧ start.Ready code.inner ctx ∧
      start.VisitedAs (.atDepth depth) ctx visits (m.context.heap.frameAt id) ctx' ∧
      TablesHoldAsLeft start visits (m.context.heap.frameAt id) m.context := by
  obtain ⟨-, _, record, rfl⟩ := runModuleWith_eq_ok.mp run
  obtain ⟨done, ctx', ran, added⟩ := Step.bind_eq_ok.mp record
  obtain ⟨start, ctx, made, ends⟩ := Step.bind_eq_ok.mp ran
  cases added
  obtain ⟨ready, kind, rfl⟩ := Frame.ready_forModule rfl made
  obtain ⟨visits, visited⟩ := Frame.exists_visits ends
  have recorded : (ctx'.heap.addFrame done).2.frameAt (ctx'.heap.addFrame done).1 = done := by
    simp [Heap.addFrame, Heap.frameAt]
  have tables := ready.tablesHoldAsLeft kind visited
  rw [← recorded] at visited tables
  -- recording the frame leaves the tables as they are
  exact ⟨start, ctx, ctx', visits, rfl, ready, visited, tables.globals, tables.spared, tables.cells⟩

/-- The code of a module that binds a name to one value or to another one. -/
def choosingModule : Code :=
  let start := ((CodeBuilder.module.op (.loadName "__name__")).op (.popJumpIfFalse 2)).newBlock
  let first := (((start.loadConst (.int 1)).op (.storeName "x")).op (.jumpForward 3)).newBlock
  let second := ((first.loadConst (.str "s")).op (.storeName "x")).newBlock
  second.returnNone.build

/-- What is said of a module holds of this one, which calls nothing and defines no function. -/
theorem choosingModule_storesHold_iff : ∃ id m,
    runModuleWith (.atDepth 1) choosingModule (.new .standard) = (.ok id, m) ∧
      ∃ start ctx ctx' visits, start.code = choosingModule ∧ start.Ready choosingModule.inner ctx ∧
        start.VisitedAs (.atDepth 1) ctx visits (m.context.heap.frameAt id) ctx' ∧
        (GlobalsHold "x" (m.context.heap.frameAt id) m.context ↔
          ∀ v, Brought start visits "x" v →
            Holding v (leftBy (Visit.binding? "x") (start.initialLocals.get? "x") visits)) := by
  obtain ⟨id, m, run⟩ := Step.exists_of_isOk
    (r := runModuleWith (.atDepth 1) choosingModule (.new .standard)) (by decide +kernel)
  obtain ⟨start, ctx, ctx', visits, code, ready, visited, tables⟩ := storesHold_iff run
  refine ⟨id, m, run, start, ctx, ctx', visits, code, ready, visited, ?_⟩
  refine tables.spared "x" fun body hbody => ?_
  rw [code] at hbody
  exact absurd (hbody : body ∈ []) List.not_mem_nil

/-- The locals of the module end with both values, its globals with the second one only. -/
theorem choosingModule_not_globalsHold : ∃ id m,
    runModule choosingModule (.new .standard) = (.ok id, m) ∧
      ¬ GlobalsHold "x" (m.context.heap.frameAt id) m.context := by
  have first : ((runModule choosingModule (.new .standard)).1.toOption.any (· == ⟨0⟩)) = true := by
    decide +kernel
  obtain ⟨id, m, run⟩ := Step.exists_of_isOk
    (r := runModule choosingModule (.new .standard)) (by decide +kernel)
  have hm : m = (runModule choosingModule (.new .standard)).2 := by rw [run]
  rw [run] at first
  obtain rfl : id = ⟨0⟩ := beq_iff_eq.mp first
  have kept : ((m.context.heap.frameAt ⟨0⟩).finalLocals.get? "x").any
      (·.values.any (· == .literal (.int 1))) = true := by
    rw [hm]
    decide +kernel
  have lost : (m.context.entry (m.context.heap.frameAt ⟨0⟩).globals "x").any
      (·.values.any (· == .literal (.int 1))) = false := by
    rw [hm]
    decide +kernel
  refine ⟨⟨0⟩, m, run, fun hold => ?_⟩
  obtain ⟨bound, has⟩ := (Option.any_eq_true_iff_get _ _).mp kept
  obtain ⟨w, hw, includes⟩ := hold _ (Option.some_get bound).symm
  rw [hw] at lost
  exact Bool.false_ne_true (lost.symm.trans (includes.any_beq has))

end Machine

end StubInference
