import StubInference.Proofs.Frame.Closure
import StubInference.Proofs.Frame.Reaching
import StubInference.Proofs.Run.Frames

/-!
# Tables that frames share

The globals and the cells of a frame are tables that others may know. A table is written to in the
order of the visits, whatever paths lead through the code, so an entry holds what the last instruction
that bound it left there, where no function that is called in between binds it too.

## Main definitions

* `Context.entry` — what a table binds a name to
* `Confinement.keep` — the confinement that also keeps an entry of a table
* `leftBy` — what a list of visits leaves in an entry
* `Visit.cellBinding?`, `Visit.written?` — what an instruction leaves in a cell, and in a global
* `Confinement.Fills` — an entry that holds at every visit what those before have left there

## Main results

* `FrameStep.perform_written`, `FrameStep.perform_global`, `FrameStep.perform_cell` — what one
  instruction leaves in an entry
* `Course.fills` — what a run leaves in an entry
-/

namespace StubInference

open Step FrameStep

/-- What a table binds a name to. -/
def Context.entry (ctx : Context) (scope : ScopeId) (name : String) : Option Variable :=
  (ctx.heap.scopeAt scope).get? name

theorem Heap.scopeAt_modifyScope {heap : Heap} {scope : ScopeId}
    {change : NameMap Variable → NameMap Variable} (known : scope.index < heap.scopes.size)
    (other : ScopeId) : (heap.modifyScope scope change).scopeAt other =
      if scope = other then change (heap.scopeAt other) else heap.scopeAt other := by
  unfold scopeAt modifyScope
  simp only [Array.getD_eq_getD_getElem?, Array.getElem?_modify]
  split
  case isTrue same =>
    obtain rfl : scope = other := congrArg ScopeId.mk same
    rw [if_pos rfl, Array.getElem?_eq_getElem known]
    rfl
  case isFalse apart =>
    rw [if_neg fun same => apart (congrArg ScopeId.index same)]

/-! ## Keeping an entry -/

/-- The confinement that keeps one entry of a table as it is, and nothing else. -/
def Confinement.keep (K : Confinement) (scope : ScopeId) (name : String) (entry : Option Variable)
    (bounded : scope.index < K.base)
    (apart : ∀ site body, K.code site body → K.isGlobals scope → ¬ body.StoresGlobal name) :
    Confinement :=
  { K with
    kept := fun other key => other = scope ∧ key = name
    saved := fun _ _ => entry
    bounded := fun _ _ hkept => hkept.1 ▸ bounded
    apart := fun site body _ _ hcode hglobals hstores hkept =>
      apart site body hcode (hkept.1 ▸ hglobals) (hkept.2 ▸ hstores) }

section Keep

variable {K : Confinement} {start frame : Frame} {stack : List FunctionId} {scope : ScopeId}
  {name : String} {bounded : scope.index < K.base}
  {apart : ∀ site body, K.code site body → K.isGlobals scope → ¬ body.StoresGlobal name}

theorem Frame.Confined.keep (h : Frame.Confined K start frame) (entry : Option Variable) :
    Frame.Confined (K.keep scope name entry bounded apart) start frame :=
  { h with admitted := ⟨h.admitted.constants, h.admitted.globals⟩ }

theorem Confinement.Holds.keep {ctx : Context} (h : K.Holds stack ctx) :
    (K.keep scope name (ctx.entry scope name) bounded apart).Holds stack ctx where
  heap := h.heap
  options := h.options
  callStack := h.callStack
  base := h.base
  kept := by
    rintro _ _ ⟨rfl, rfl⟩
    rfl

/-- An instruction that does not bind an entry itself leaves it alone, even where it calls
functions. -/
theorem FrameStep.perform_keeps {depth : Nat} {op : Opcode} {s : Execution}
    (within : K.Within start stack s) (bounded : scope.index < K.base)
    (apart : ∀ site body, K.code site body → K.isGlobals scope → ¬ body.StoresGlobal name)
    (globals : op.BindsGlobal start.kind name → start.globals ≠ scope)
    (cells : op.BindsCell name → start.cells ≠ scope) :
    (perform (.atDepth depth) op s).2.context.entry scope name = s.context.entry scope name := by
  let kept := K.keep scope name (s.context.entry scope name) bounded apart
  have spares : start.Spares kept op := by
    constructor
    · rintro _ binds ⟨hscope, rfl⟩
      exact globals binds hscope
    · rintro _ binds ⟨hscope, rfl⟩
      exact cells binds hscope
  have agree := perform_agree (Evaluator.agree_atDepth kept depth stack) spares
  obtain ⟨-, ⟨-, hctx⟩, -⟩ := agree s ⟨within.1.keep _, within.2.keep⟩
  exact hctx.kept scope name ⟨rfl, rfl⟩

end Keep

/-! ## One instruction -/

/-- What an instruction leaves in a cell, if it binds the name there. -/
def Visit.cellBinding? (name : String) (visit : Visit) : Option (Option Variable) :=
  match visit.instruction.opcode with
  | .storeDeref other => if other = name then some visit.before.frame.state.stack.head? else none
  | .makeCell other =>
    if other = name then (visit.before.frame.state.locals.get? name).map some else none
  | _ => none

/-- An instruction that was executed never unbinds a cell. -/
theorem Visit.cellBinding?_ne {ev : Evaluator} {visit : Visit} (name : String)
    (performed : perform ev visit.instruction.opcode visit.before = (.ok (), visit.after)) :
    visit.cellBinding? name ≠ some none := by
  unfold Visit.cellBinding?
  split
  case h_1 other hop =>
    rw [hop] at performed
    obtain ⟨v, t, ht, -⟩ := Step.bind_eq_ok.mp performed
    obtain ⟨below, hs, -⟩ := pop_eq_ok.mp ht
    split <;> simp [hs]
  case h_2 =>
    split
    · cases visit.before.frame.state.locals.get? _ <;> simp
    · simp
  case h_3 => simp

/-- An execution with a cell bound. -/
def Execution.withCell (s : Execution) (name : String) (v : Variable) : Execution :=
  let heap := s.context.heap.modifyScope s.frame.cells (·.insert name v)
  ⟨s.frame, { s.context with heap }⟩

theorem FrameStep.modifyCells_insert (name : String) (v : Variable) (s : Execution) :
    modifyCells (·.insert name v) s = (.ok (), s.withCell name v) := rfl

/-- What an instruction of a module leaves under a global name, if it may change what is there. One that
makes a call leaves whatever the call has left. -/
def Visit.written? (globals : ScopeId) (name : String) (visit : Visit) : Option (Option Variable) :=
  if visit.instruction.opcode.calls = true then some (visit.after.context.entry globals name)
  else visit.binding? name

namespace Opcode

variable {op : Opcode} {name : String}

theorem deletedName?_of_stored (stores : op.storedName? = some name) : op.deletedName? = none := by
  cases op <;> cases stores <;> rfl

/-- What an instruction calls may bind names, but the instruction itself binds none. -/
theorem binds_none_of_calls (calls : op.calls = true) :
    op.storedName? = none ∧ op.deletedName? = none := by
  cases op <;> cases calls <;> exact ⟨rfl, rfl⟩

theorem not_bindsGlobal_of_calls (calls : op.calls = true) (kind : FrameKind) :
    ¬ op.BindsGlobal kind name := by
  rintro (rfl | ⟨-, stores | deletes⟩)
  · cases calls
  · cases stores.symm.trans (binds_none_of_calls calls).1
  · cases deletes.symm.trans (binds_none_of_calls calls).2

end Opcode

/-- A step that leaves all tables of names as they are. -/
def FrameStep.KeepsTables {α : Type} (m : FrameStep α) : Prop :=
  ∀ s, (m s).2.context.heap.scopes = s.context.heap.scopes

/-- Steps keep the tables, except those that write to one. -/
theorem FrameStep.keepsTables_nameless : Nameless fun _ m => KeepsTables m where
  pure _ _ := rfl
  bind first second s := bind_keeps (fun s : Execution => s.context.heap.scopes) (first s) second
  get _ := rfl
  throw _ _ := rfl
  modifyFrame _ _ := rfl
  record _ _ := rfl
  addFunction _ _ := rfl
  setAttribute _ _ _ _ := Heap.scopes_setAttribute ..

section Instructions

variable {K : Confinement} {start : Frame} {stack : List FunctionId} {name : String} {depth : Nat}
  {s u : Execution} {instruction : Instruction} {rest : List Instruction} {index : Nat}

theorem Execution.entry_withCell (size : s.frame.cells.index < s.context.heap.scopes.size)
    (other : String) (v : Variable) (scope : ScopeId) : (s.withCell other v).context.entry scope name =
      if s.frame.cells = scope ∧ other = name then some v else s.context.entry scope name := by
  change ((s.context.heap.modifyScope s.frame.cells _).scopeAt scope).get? name = _
  rw [Heap.scopeAt_modifyScope size]
  by_cases here : s.frame.cells = scope
  · by_cases same : other = name
    · rw [if_pos here, if_pos ⟨here, same⟩, same, NameMap.get?_insert_self]
    · rw [if_pos here, if_neg fun h => same h.2, NameMap.get?_insert_of_ne _ v same]
      rfl
  · rw [if_neg here, if_neg fun h => here h.1]
    rfl

/-- The top of the stack is stored in a cell. -/
theorem FrameStep.perform_storeDeref {ev : Evaluator} {other : String}
    (performed : perform ev (.storeDeref other) s = (.ok (), u)) :
    ∃ v below, s.frame.state.stack = v :: below ∧
      u = (s.withState { s.frame.state with stack := below }).withCell other v := by
  obtain ⟨v, t, ht, hstore⟩ := Step.bind_eq_ok.mp performed
  obtain ⟨below, hs, rfl⟩ := pop_eq_ok.mp ht
  rw [modifyCells_insert] at hstore
  cases hstore
  exact ⟨v, below, hs, rfl⟩

/-- A cell is made of the local variable of that name, if there is one. -/
theorem FrameStep.perform_makeCell {ev : Evaluator} {other : String}
    (performed : perform ev (.makeCell other) s = (.ok (), u)) :
    (s.frame.state.locals.get? other = none ∧ u = s) ∨
      ∃ v, s.frame.state.locals.get? other = some v ∧ u = s.withCell other v := by
  obtain ⟨names, t, ht, hmake⟩ := Step.bind_eq_ok.mp performed
  rw [fromFrame_apply] at ht
  cases ht
  cases hv : s.frame.state.locals.get? other with
  | none =>
    rw [hv] at hmake
    cases hmake
    exact .inl ⟨rfl, rfl⟩
  | some v =>
    rw [hv] at hmake
    dsimp only at hmake
    rw [modifyCells_insert] at hmake
    cases hmake
    exact .inr ⟨v, rfl, rfl⟩

/-- Where an instruction neither calls nor writes names, all tables stay as they are. -/
theorem FrameStep.entry_of_leaves {ev : Evaluator} {op : Opcode} (plain : op.calls = false)
    (leaves : ¬ op.WritesNames) (performed : perform ev op s = (.ok (), u)) (scope : ScopeId)
    (name : String) : u.context.entry scope name = s.context.entry scope name := by
  have kept : KeepsTables (perform ev op) := by
    apply keepsTables_nameless.perform ev leaves
    · rintro count rfl
      cases plain
    · rintro flags rfl
      cases plain
  have same := kept s
  rw [performed] at same
  unfold Context.entry Heap.scopeAt
  rw [same]

/-- Where an instruction neither calls nor changes the names of its frame, it writes to the cells at
most. -/
theorem FrameStep.entry_of_binds_none {ev : Evaluator} {op : Opcode} {scope : ScopeId}
    (plain : op.calls = false) (stores : op.storedName? = none) (deletes : op.deletedName? = none)
    (size : s.frame.cells.index < s.context.heap.scopes.size) (beside : s.frame.cells ≠ scope)
    (performed : perform ev op s = (.ok (), u)) :
    u.context.entry scope name = s.context.entry scope name := by
  have elsewhere (other : String) (v : Variable) :
      (s.withCell other v).context.entry scope name = s.context.entry scope name := by
    rw [Execution.entry_withCell size, if_neg fun h => beside h.1]
  by_cases writes : op.WritesNames
  · cases op with
    | storeDeref other =>
      obtain ⟨v, below, -, rfl⟩ := perform_storeDeref performed
      exact elsewhere other v
    | makeCell other =>
      rcases perform_makeCell performed with ⟨-, rfl⟩ | ⟨v, -, rfl⟩
      · rfl
      · exact elsewhere other v
    | storeName | storeFast | storeGlobal => cases stores
    | deleteName | deleteFast => cases deletes
    | _ => exact writes.elim
  · exact entry_of_leaves plain writes performed scope name

/-- Where the names of a module change, its globals do. -/
theorem Execution.entry_withNames (size : s.frame.globals.index < s.context.heap.scopes.size)
    (change : NameMap Variable → NameMap Variable) :
    (s.withNames change).context.entry s.frame.globals name =
      (change (s.context.heap.scopeAt s.frame.globals)).get? name := by
  change ((s.context.heap.modifyScope s.frame.globals change).scopeAt s.frame.globals).get? name = _
  rw [Heap.scopeAt_modifyScope size, if_pos rfl]

/-- What an instruction of a module leaves under a global name, whether functions bind it or not. -/
theorem FrameStep.perform_written (within : K.Within start stack s) (module : start.kind = .module)
    (globals : start.globals.index < K.base) (cells : start.cells.index < K.base)
    (distinct : start.cells ≠ start.globals)
    (performed : perform (.atDepth depth) instruction.opcode s = (.ok (), u)) :
    u.context.entry start.globals name =
      (Visit.written? start.globals name ⟨index, instruction, rest, s, u⟩).getD
        (s.context.entry start.globals name) := by
  have kind : s.frame.kind = .module := within.1.kind.trans module
  rw [← within.1.globals] at globals distinct ⊢
  rw [← within.1.cells] at cells distinct
  have size : s.frame.globals.index < s.context.heap.scopes.size :=
    Nat.lt_of_lt_of_le globals within.2.base
  unfold Visit.written?
  by_cases calls : instruction.opcode.calls = true
  · rw [if_pos calls]
    rfl
  rw [if_neg calls]
  unfold Visit.binding?
  dsimp only
  cases stores : instruction.opcode.storedName? with
  | some other =>
    obtain ⟨v, below, hs, rfl⟩ := (perform_stores kind stores).mp performed
    have deletes : instruction.opcode.deletedName? = none := Opcode.deletedName?_of_stored stores
    refine (Execution.entry_withNames size _).trans ?_
    rw [deletes, hs]
    by_cases same : other = name
    · rw [same, NameMap.get?_insert_self, if_pos rfl]
      rfl
    · rw [NameMap.get?_insert_of_ne _ v same, if_neg (by simpa using same), if_neg (by simp)]
      rfl
  | none =>
    rw [if_neg (by simp)]
    cases deletes : instruction.opcode.deletedName? with
    | some other =>
      rw [perform_deletes kind deletes] at performed
      cases performed
      refine (Execution.entry_withNames size _).trans ?_
      by_cases same : other = name
      · rw [same, NameMap.get?_erase_self, if_pos rfl]
        rfl
      · rw [NameMap.get?_erase_of_ne _ same, if_neg (by simpa using same)]
        rfl
    | none =>
      rw [if_neg (by simp)]
      have cellsSize := Nat.lt_of_lt_of_le cells within.2.base
      exact entry_of_binds_none (Bool.not_eq_true _ ▸ calls) stores deletes cellsSize distinct performed

/-- The same under a name that no function binds: a call leaves it alone. -/
theorem FrameStep.perform_global (within : K.Within start stack s) (module : start.kind = .module)
    (globals : start.globals.index < K.base) (cells : start.cells.index < K.base)
    (distinct : start.cells ≠ start.globals)
    (apart : ∀ site body, K.code site body → ¬ body.StoresGlobal name)
    (performed : perform (.atDepth depth) instruction.opcode s = (.ok (), u)) :
    u.context.entry start.globals name =
      (Visit.binding? name ⟨index, instruction, rest, s, u⟩).getD
        (s.context.entry start.globals name) := by
  have written : u.context.entry start.globals name =
      (Visit.written? start.globals name ⟨index, instruction, rest, s, u⟩).getD
        (s.context.entry start.globals name) :=
    perform_written within module globals cells distinct performed
  by_cases calls : instruction.opcode.calls = true
  · have keeps : (perform (.atDepth depth) instruction.opcode s).2.context.entry start.globals name =
        s.context.entry start.globals name := by
      apply perform_keeps within globals fun site body hcode _ => apart site body hcode
      · exact fun binds => absurd binds (Opcode.not_bindsGlobal_of_calls calls _)
      · exact fun _ => distinct
    rw [performed] at keeps
    obtain ⟨stores, deletes⟩ := Opcode.binds_none_of_calls calls
    simp [Visit.binding?, stores, deletes, keeps]
  · rwa [Visit.written?, if_neg calls] at written

/-- What an instruction leaves in a cell that no function knows as a global. -/
theorem FrameStep.perform_cell (within : K.Within start stack s)
    (bounded : start.cells.index < K.base) (distinct : start.globals ≠ start.cells)
    (unknown : ¬ K.isGlobals start.cells)
    (performed : perform (.atDepth depth) instruction.opcode s = (.ok (), u)) :
    u.context.entry start.cells name =
      (Visit.cellBinding? name ⟨index, instruction, rest, s, u⟩).getD
        (s.context.entry start.cells name) := by
  have cells : s.frame.cells = start.cells := within.1.cells
  have size : s.frame.cells.index < s.context.heap.scopes.size := by
    rw [cells]
    exact Nat.lt_of_lt_of_le bounded within.2.base
  -- an instruction that binds another cell, or none at all
  have keeps (spares : ¬ instruction.opcode.BindsCell name) :
      u.context.entry start.cells name = s.context.entry start.cells name := by
    have kept : (perform (.atDepth depth) instruction.opcode s).2.context.entry start.cells name =
        s.context.entry start.cells name :=
      perform_keeps within bounded (fun _ _ _ known => absurd known unknown) (fun _ => distinct)
        fun binds => absurd binds spares
    rwa [performed] at kept
  rw [← cells] at keeps ⊢
  unfold Visit.cellBinding?
  split
  case h_1 other hop =>
    dsimp only at hop
    rw [hop] at performed
    obtain ⟨v, below, hs, rfl⟩ := perform_storeDeref performed
    refine (Execution.entry_withCell size other v s.frame.cells).trans ?_
    simp only [true_and]
    split
    · rw [hs]
      rfl
    · rfl
  case h_2 other hop =>
    dsimp only at hop ⊢
    rw [hop] at performed
    rcases perform_makeCell performed with ⟨hv, rfl⟩ | ⟨v, hv, rfl⟩
    · split
      case isTrue h => simp [← h, hv]
      case isFalse => rfl
    · refine (Execution.entry_withCell size other v s.frame.cells).trans ?_
      simp only [true_and]
      split
      case isTrue h => simp [← h, hv]
      case isFalse => rfl
  case h_3 hstore hmake =>
    refine keeps ?_
    rintro (hop | hop)
    · exact hmake name hop
    · exact hstore name hop

/-- A cell that is bound is what the instruction that reads it puts on the stack. -/
theorem FrameStep.perform_loadDeref {v : Variable}
    (bound : s.context.entry s.frame.cells name = some v)
    (performed : perform (.atDepth depth) (.loadDeref name) s = (.ok (), u)) :
    u.frame.state.stack.head? = some v := by
  have found : (s.frame.cells :: s.frame.enclosing.reverse).findSome? (fun scope =>
      (s.context.heap.scopeAt scope).get? name) = some v := by
    rw [Context.entry] at bound
    rw [List.findSome?_cons, bound]
  have loaded : loadDeref name s = (.ok v, s) := by
    refine Step.bind_eq_ok.mpr ⟨s, s, rfl, Step.bind_eq_ok.mpr ⟨s, s, rfl, ?_⟩⟩
    rw [found]
    rfl
  obtain ⟨w, t, ht, hpush⟩ := Step.bind_eq_ok.mp performed
  rw [loaded] at ht
  cases ht
  cases hpush
  rfl

end Instructions

/-! ## Whole runs -/

/-- What visits leave in an entry, each of which may bind it. -/
def leftBy (bind : Visit → Option (Option Variable)) (entry : Option Variable)
    (visits : List Visit) : Option Variable :=
  visits.foldl (fun entry visit => (bind visit).getD entry) entry

/-- What is left by visits of which one binds an entry, if none unbinds it. -/
theorem leftBy_ne_none {bind : Visit → Option (Option Variable)} {entry : Option Variable}
    {visits : List Visit} (binds : ∀ visit ∈ visits, bind visit ≠ some none)
    (bound : entry ≠ none ∨ ∃ visit ∈ visits, bind visit ≠ none) :
    leftBy bind entry visits ≠ none := by
  induction visits generalizing entry with
  | nil => exact bound.resolve_right (by simp)
  | cons visit rest ih =>
    simp only [List.forall_mem_cons] at binds
    change leftBy bind ((bind visit).getD entry) rest ≠ none
    refine ih binds.2 ?_
    cases hb : bind visit with
    | none =>
      -- this visit does not bind the entry, so the one that does comes later
      refine bound.imp_right ?_
      rintro ⟨other, hother, hne⟩
      rcases List.mem_cons.mp hother with rfl | hother
      · exact absurd hb hne
      · exact ⟨other, hother, hne⟩
    | some x => exact .inl fun hx => binds.1 (hb.trans (congrArg some hx))

section Runs

variable {K : Confinement} {start : Frame} {stack : List FunctionId} {depth : Nat}
  {s t u : Execution} {index : Nat}

theorem Confinement.Within.atLine (h : K.Within start stack s) (line : Nat) :
    K.Within start stack (s.atLine line) := ⟨{ h.1 with }, h.2.record _ _⟩

theorem Confinement.Within.atBlock (h : K.Within start stack s) {entry : Nat × BlockState}
    (known : s.frame.pending.find? (·.1 == index) = some entry) :
    K.Within start stack (s.atBlock index entry.2) := by
  refine ⟨{ h.1 with state := ?_, pending := fun other hother => ?_ }, h.2⟩
  · exact h.1.pending entry (List.mem_of_find?_eq_some known)
  · exact h.1.pending other (List.mem_of_mem_filter hother)

theorem Confinement.Within.jump (h : K.Within start stack s)
    (jumped : FrameStep.jump index s = (.ok (), u)) : K.Within start stack u := by
  obtain ⟨-, after, -⟩ := agree_jump index s h
  rwa [jumped] at after

/-- Where nothing is kept an instruction may do anything. -/
theorem Confinement.Within.perform (h : K.Within start stack s)
    (free : ∀ scope name, ¬ K.kept scope name) {op : Opcode}
    (performed : FrameStep.perform (.atDepth depth) op s = (.ok (), u)) :
    K.Within start stack u := by
  have spares : start.Spares K op := ⟨fun name _ => free _ name, fun name _ => free _ name⟩
  obtain ⟨-, after, -⟩ := perform_agree (Evaluator.agree_atDepth K depth stack) spares s h
  rwa [performed] at after

/-- Edges between blocks leave the tables alone. -/
theorem FrameStep.context_of_jump (jumped : FrameStep.jump index s = (.ok (), u)) :
    u.context = s.context := by
  rcases enter_eq_ok.mp (jump_eq_ok.mp jumped) with ⟨-, -, pending, -, rfl⟩ | ⟨-, rfl⟩ <;> rfl

/-- Before every visit an entry holds what those ahead of it have left there, and after the last one
what all of them have. -/
structure Confinement.Fills (K : Confinement) (start : Frame) (stack : List FunctionId)
    (scope : ScopeId) (name : String) (bind : Visit → Option (Option Variable))
    (entry : Option Variable) (visits : List Visit) (t : Execution) : Prop where
  within : K.Within start stack t
  after : t.context.entry scope name = leftBy bind entry visits
  before : ∀ earlier visit later, visits = earlier ++ visit :: later →
    K.Within start stack visit.before ∧
      visit.before.context.entry scope name = leftBy bind entry earlier

variable {scope : ScopeId} {name : String} {bind : Visit → Option (Option Variable)}

/-- A visit comes first, and the others go on with what it leaves. -/
theorem Confinement.Fills.visit {visit : Visit} {visits : List Visit}
    (within : K.Within start stack visit.before)
    (more : K.Fills start stack scope name bind
      ((bind visit).getD (visit.before.context.entry scope name)) visits t) :
    K.Fills start stack scope name bind (visit.before.context.entry scope name) (visit :: visits)
      t where
  within := more.within
  after := more.after
  before earlier other later heq := by
    cases earlier with
    | nil =>
      cases heq
      exact ⟨within, rfl⟩
    | cons first earlier =>
      cases heq
      exact more.before earlier other later rfl

/-- A run fills an entry with what its visits leave there. -/
theorem Course.fills {blocks : List Block} {point : Point} {visits : List Visit}
    (course : Course (.atDepth depth) blocks point s visits t) (within : K.Within start stack s)
    (free : ∀ scope name, ¬ K.kept scope name)
    (binds : ∀ (index : Nat) (instruction : Instruction) (rest : List Instruction)
      (s u : Execution), K.Within start stack s →
      FrameStep.perform (.atDepth depth) instruction.opcode s = (.ok (), u) →
      u.context.entry scope name =
        (bind ⟨index, instruction, rest, s, u⟩).getD (s.context.entry scope name)) :
    K.Fills start stack scope name bind (s.context.entry scope name) visits t := by
  -- the line of an instruction is set before it is performed, which leaves the tables alone
  have visited {index : Nat} {instruction : Instruction} {rest : List Instruction}
      {s t u : Execution} {visits : List Visit} (within : K.Within start stack s)
      (performed : FrameStep.perform (.atDepth depth) instruction.opcode
        (s.atLine instruction.line) = (.ok (), u))
      (more : K.Fills start stack scope name bind (u.context.entry scope name) visits t) :
      K.Fills start stack scope name bind (s.context.entry scope name)
        (⟨index, instruction, rest, s.atLine instruction.line, u⟩ :: visits) t := by
    have lined := within.atLine instruction.line
    rw [binds index instruction rest _ u lined performed] at more
    exact .visit lined more
  induction course with
  | done => exact ⟨within, rfl, fun earlier visit later heq => (by simp at heq)⟩
  | skip _ _ _ ih => exact ih within
  | enter _ known _ ih => exact ih (within.atBlock known)
  | next performed _ _ ih =>
    exact visited within performed (ih ((within.atLine _).perform free performed))
  | stop performed _ _ ih =>
    exact visited within performed (ih ((within.atLine _).perform free performed))
  | fall _ jumped _ ih =>
    have entry := ih (within.jump jumped)
    rwa [context_of_jump jumped] at entry
  | last _ _ ih => exact ih within

end Runs

end StubInference
