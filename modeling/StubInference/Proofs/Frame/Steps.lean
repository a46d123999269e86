import StubInference.Frame.Run

/-!
# What steps do

Steps are functions from a state to a result and a new state. The lemmas here run the steps that
instructions are made of, so that nothing else has to look inside a step.

## Main results

* `Step.bind_eq_ok` — a sequence succeeds when both of its parts do
* `FrameStep.pop_eq_ok`, `FrameStep.popMany_eq_ok`, `FrameStep.peek_eq_ok` — the operand stack
* `FrameStep.enter_eq_ok`, `FrameStep.takePending_apply` — the edges between blocks
-/

namespace StubInference

/-! ## Sequences of steps -/

namespace Step

variable {σ α β : Type}

theorem bind_apply (m : ExceptT Fault (StateM σ) α) (f : α → ExceptT Fault (StateM σ) β) (s : σ) :
    (m >>= f) s = match m s with
      | (.ok a, s) => f a s
      | (.error fault, s) => (.error fault, s) := by
  change ExceptT.bind m f s = _
  simp only [ExceptT.bind, ExceptT.mk, bind, StateT.bind]
  rcases m s with ⟨_ | _, _⟩ <;> rfl

/-- A sequence succeeds when its first part does and then the second one. -/
theorem bind_eq_ok {m : ExceptT Fault (StateM σ) α} {f : α → ExceptT Fault (StateM σ) β}
    {s t : σ} {b : β} :
    (m >>= f) s = (.ok b, t) ↔ ∃ a u, m s = (.ok a, u) ∧ f a u = (.ok b, t) := by
  rw [bind_apply]
  constructor
  · intro h
    rcases hm : m s with ⟨_ | a, u⟩
    · rw [hm] at h
      cases h
    · rw [hm] at h
      exact ⟨a, u, rfl, h⟩
  · rintro ⟨a, u, hm, hf⟩
    rw [hm]
    exact hf

/-- Behind a part that succeeds the rest goes on. -/
theorem bind_of_ok {m : ExceptT Fault (StateM σ) α} {f : α → ExceptT Fault (StateM σ) β}
    {s t : σ} {a : α} (h : m s = (.ok a, t)) : (m >>= f) s = f a t := by
  rw [bind_apply, h]

/-- A sequence leads wherever its parts lead one after the other. A fault ends it where the first part
has led. -/
theorem bind_leads {R : σ → σ → Prop} {m : ExceptT Fault (StateM σ) α}
    {f : α → ExceptT Fault (StateM σ) β} {s : σ} (trans : ∀ {s t u}, R s t → R t u → R s u)
    (first : R s (m s).2) (second : ∀ a t, R t (f a t).2) : R s ((m >>= f) s).2 := by
  rw [bind_apply]
  rcases hm : m s with ⟨_ | a, t⟩ <;> rw [hm] at first
  · exact first
  · exact trans first (second a t)

/-- What both parts leave as it is, the sequence leaves as it is. -/
theorem bind_keeps {γ : Type} (observe : σ → γ) {m : ExceptT Fault (StateM σ) α}
    {f : α → ExceptT Fault (StateM σ) β} {s : σ} (first : observe (m s).2 = observe s)
    (second : ∀ a t, observe (f a t).2 = observe t) : observe ((m >>= f) s).2 = observe s :=
  bind_leads (R := fun s t => observe t = observe s) (fun here there => there.trans here) first second

/-- Behind a fault nothing is done. -/
theorem fst_bind_of_error {m : ExceptT Fault (StateM σ) α} {f : α → ExceptT Fault (StateM σ) β}
    {s : σ} {fault : Fault} (h : (m s).1 = .error fault) : ((m >>= f) s).1 = .error fault := by
  rw [bind_apply]
  rcases hm : m s with ⟨_ | a, t⟩ <;> rw [hm] at h <;> cases h
  rfl

/-- A result that is no fault, in a form that can be computed. -/
theorem exists_of_isOk {r : Except Fault α × σ} (h : r.1.isOk = true) :
    ∃ a s, r = (.ok a, s) := by
  obtain ⟨_ | a, s⟩ := r
  · cases h
  · exact ⟨a, s, rfl⟩

end Step

/-- The execution with other locals and another stack. -/
def Execution.withState (s : Execution) (state : BlockState) : Execution :=
  ⟨{ s.frame with state }, s.context⟩

@[simp] theorem Execution.withState_state (s : Execution) (state : BlockState) :
    (s.withState state).frame.state = state := rfl

@[simp] theorem Execution.withState_context (s : Execution) (state : BlockState) :
    (s.withState state).context = s.context := rfl

/-- The execution as it stands when an instruction on a line is executed. -/
def Execution.atLine (s : Execution) (line : Nat) : Execution :=
  ⟨{ s.frame with line }, { s.context with position := ⟨s.frame.name, line⟩ }⟩

/-- The execution as it enters a block in a given state. -/
def Execution.atBlock (s : Execution) (index : Nat) (state : BlockState) : Execution :=
  ⟨{ s.frame with pending := s.frame.pending.filter (·.1 ≠ index), block := index, state },
    s.context⟩

namespace FrameStep

variable {α : Type} {s t : Execution} {op : Opcode} {var : Variable}

/-! ## The operand stack -/

theorem fromFrame_apply (read : Frame → α) (s : Execution) :
    fromFrame read s = (.ok (read s.frame), s) := rfl

theorem analysis_apply (step : Analysis α) (s : Execution) :
    analysis step s = ((step s.context).1, ⟨s.frame, (step s.context).2⟩) := rfl

theorem fromHeap_apply (read : Heap → α) (s : Execution) :
    fromHeap read s = (.ok (read s.context.heap), s) := rfl

theorem modifyFrame_apply (change : Frame → Frame) (s : Execution) :
    modifyFrame change s = (.ok (), ⟨change s.frame, s.context⟩) := rfl

theorem modifyLocals_apply (change : NameMap Variable → NameMap Variable) (s : Execution) :
    modifyLocals change s =
      (.ok (), s.withState { s.frame.state with locals := change s.frame.state.locals }) := rfl

theorem push_apply (var : Variable) (s : Execution) :
    push var s =
      (.ok (), s.withState { s.frame.state with stack := var :: s.frame.state.stack }) := rfl

theorem pushValue_apply (value : Value) (s : Execution) :
    pushValue value s = push (.ofValueAt value (.line s.frame.line)) s := rfl

theorem replace_apply (depth : Nat) (var : Variable) (s : Execution) :
    replace depth var s = (.ok (), s.withState
      { s.frame.state with stack := s.frame.state.stack.set (depth - 1) var }) := rfl

theorem pop_apply (op : Opcode) (s : Execution) :
    pop op s = match s.frame.state.stack with
      | [] => (.error (.stackUnderflow s.frame.name op.name), s)
      | top :: rest => (.ok top, s.withState { s.frame.state with stack := rest }) := by
  change (match s.frame.state.stack with
    | [] => underflow op
    | top :: rest => do
      modifyState fun state => { state with stack := rest }
      pure top : FrameStep Variable) s = _
  cases s.frame.state.stack <;> rfl

theorem pop_eq_ok : pop op s = (.ok var, t) ↔ ∃ rest, s.frame.state.stack = var :: rest ∧
    t = s.withState { s.frame.state with stack := rest } := by
  rw [pop_apply]
  cases s.frame.state.stack with
  | nil => exact ⟨fun h => (by cases h), by simp⟩
  | cons top rest =>
    constructor
    · intro h
      cases h
      exact ⟨rest, rfl, rfl⟩
    · rintro ⟨_, h, rfl⟩
      cases h
      rfl

theorem popMany_apply (count : Nat) (op : Opcode) (s : Execution) :
    popMany count op s =
      if s.frame.state.stack.length < count then
        (.error (.stackUnderflow s.frame.name op.name), s)
      else
        (.ok (s.frame.state.stack.take count).reverse,
          s.withState { s.frame.state with stack := s.frame.state.stack.drop count }) := by
  by_cases h : s.frame.state.stack.length < count
  · rw [if_pos h, popMany, Step.bind_apply]
    simp only [stack, fromFrame_apply, if_pos h]
    rfl
  · rw [if_neg h, popMany, Step.bind_apply]
    simp only [stack, fromFrame_apply, if_neg h]
    rfl

theorem popMany_eq_ok {count : Nat} {vars : List Variable} :
    popMany count op s = (.ok vars, t) ↔ count ≤ s.frame.state.stack.length ∧
      vars = (s.frame.state.stack.take count).reverse ∧
      t = s.withState { s.frame.state with stack := s.frame.state.stack.drop count } := by
  rw [popMany_apply]
  split
  case isTrue h => exact ⟨fun e => (by cases e), fun e => absurd e.1 (by omega)⟩
  case isFalse h =>
    constructor
    · intro e
      cases e
      exact ⟨by omega, rfl, rfl⟩
    · rintro ⟨-, rfl, rfl⟩
      rfl

theorem peek_eq_ok {depth : Nat} : peek depth op s = (.ok var, t) ↔
    ∃ above, depth = above + 1 ∧ s.frame.state.stack[above]? = some var ∧ t = s := by
  rw [peek, Step.bind_eq_ok]
  constructor
  · rintro ⟨stack, u, hu, h⟩
    cases hu
    cases depth with
    | zero => cases h
    | succ above =>
      refine ⟨above, rfl, ?_⟩
      dsimp only at h
      cases hs : s.frame.state.stack[above]? with
      | none =>
        rw [hs] at h
        cases h
      | some top =>
        rw [hs] at h
        cases h
        exact ⟨rfl, rfl⟩
  · rintro ⟨above, rfl, hs, ht⟩
    subst ht
    refine ⟨_, _, rfl, ?_⟩
    dsimp only
    rw [hs]
    rfl

theorem check_eq_ok {result : Except Fault α} {a : α} :
    check result s = (.ok a, t) ↔ result = .ok a ∧ t = s := by
  cases result with
  | error fault => exact ⟨fun h => (by cases h), fun h => (by simp at h)⟩
  | ok value =>
    constructor
    · intro h
      cases h
      exact ⟨rfl, rfl⟩
    · rintro ⟨h, rfl⟩
      cases h
      rfl

theorem constant_eq_ok {index : Nat} {literal : Literal} :
    constant index s = (.ok literal, t) ↔
      s.frame.code.literalAt s.frame.site index = .ok literal ∧ t = s := by
  change (check (s.frame.code.literalAt s.frame.site index)) s = _ ↔ _
  exact check_eq_ok

/-! ## Locals of functions -/

theorem storeLocal_apply {name : String} (hs : s.frame.kind = .function) :
    storeLocal name var s = (.ok (), s.withState
      { s.frame.state with locals := s.frame.state.locals.insert name var }) := by
  rw [storeLocal, Step.bind_apply, fromFrame_apply]
  simp only [hs]
  rfl

theorem deleteLocal_apply {name : String} (hs : s.frame.kind = .function) :
    deleteLocal name s = (.ok (), s.withState
      { s.frame.state with locals := s.frame.state.locals.erase name }) := by
  rw [deleteLocal, Step.bind_apply, modifyLocals_apply]
  simp only
  rw [Step.bind_apply, fromFrame_apply]
  simp only [Execution.withState, hs]
  rfl

/-! ## Attributes -/

/-- The attribute of the one value that a variable holds. -/
theorem loadAttribute_of_one {object w : Variable} {name : String} {a : Value}
    (values : object.values = [a]) (found : a.attribute? s.context.heap name = some w) :
    loadAttribute object name s = (.ok (.ofValues w.values), s) := by
  have looked : loadAttribute.load name [a] s = (.ok w.values, s) := by
    refine Step.bind_eq_ok.mpr ⟨s, s, rfl, ?_⟩
    simp only [found]
    refine Step.bind_eq_ok.mpr ⟨w.values, s, rfl, Step.bind_eq_ok.mpr ⟨[], s, rfl, ?_⟩⟩
    rw [List.append_nil]
    rfl
  rw [← values] at looked
  exact Step.bind_eq_ok.mpr ⟨_, s, looked, rfl⟩

/-! ## Edges -/

/-- An edge either leads forward to a block that exists and joins its state there, or it is not
followed. -/
theorem enter_eq_ok {target : Nat} {state : BlockState} : enter target state s = (.ok (), t) ↔
    (s.frame.block < target ∧ target < s.frame.code.blocks.length ∧
      ∃ pending, addPending target state s.frame.pending = .ok pending ∧
        t = ⟨{ s.frame with pending }, s.context⟩) ∨
    (target ≤ s.frame.block ∧ t = s) := by
  change (if s.frame.block < target then do
      if s.frame.code.blocks.length ≤ target then
        throw (.unhandled (.jumpTarget target s.frame.name s.frame.code.blocks.length))
      let pending ← check (addPending target state s.frame.pending)
      modifyFrame fun frame => { frame with pending }
    else pure () : FrameStep Unit) s = _ ↔ _
  split
  case isFalse hle =>
    constructor
    · intro h
      cases h
      exact .inr ⟨by omega, rfl⟩
    · rintro (⟨hlt, -⟩ | ⟨-, rfl⟩)
      · omega
      · rfl
  case isTrue hlt =>
    by_cases hlen : s.frame.code.blocks.length ≤ target
    · constructor
      · intro h
        rw [if_pos hlen] at h
        cases h
      · rintro (⟨-, h, -⟩ | ⟨h, -⟩) <;> omega
    · rw [if_neg hlen]
      constructor
      · intro h
        obtain ⟨pending, u, hu, ht⟩ := Step.bind_eq_ok.mp h
        obtain ⟨hp, rfl⟩ := check_eq_ok.mp hu
        cases ht
        exact .inl ⟨hlt, by omega, pending, hp, rfl⟩
      · rintro (⟨-, -, pending, hp, rfl⟩ | ⟨h, -⟩)
        · exact Step.bind_eq_ok.mpr ⟨pending, s, check_eq_ok.mpr ⟨hp, rfl⟩, rfl⟩
        · omega

theorem jump_eq_ok {target : Nat} : jump target s = (.ok (), t) ↔
    enter target s.frame.state s = (.ok (), t) := Iff.rfl

/-- The item of a loop goes on the stack where the loop goes on, and the iterator off the stack
where it is left. -/
theorem iterate_eq_ok {target : Nat} : iterate target op s = (.ok (), t) ↔
    ∃ top rest u, s.frame.state.stack = top :: rest ∧
      enter target { s.frame.state with stack := rest } s = (.ok (), u) ∧
      pushValue .any u = (.ok (), t) := by
  change (match s.frame.state.stack with
    | [] => underflow op
    | _ :: rest => do
      enter target { s.frame.state with stack := rest }
      pushValue .any : FrameStep Unit) s = _ ↔ _
  cases hs : s.frame.state.stack with
  | nil => exact ⟨fun h => (by cases h), by simp⟩
  | cons top rest =>
    constructor
    · intro h
      obtain ⟨_, u, hu, ht⟩ := Step.bind_eq_ok.mp h
      exact ⟨top, rest, u, rfl, hu, ht⟩
    · rintro ⟨_, _, u, hrest, hu, ht⟩
      cases hrest
      exact Step.bind_eq_ok.mpr ⟨(), u, hu, ht⟩

theorem returnTop_eq_ok : returnTop op s = (.ok (), t) ↔
    ∃ rest var, s.frame.state.stack = var :: rest ∧
      t = ⟨{ s.frame with
        state := { s.frame.state with stack := rest }
        returns := s.frame.returns ++ [var]
        finalLocals := addFinalLocals s.frame.finalLocals s.frame.state.locals }, s.context⟩ := by
  rw [returnTop, Step.bind_eq_ok]
  constructor
  · rintro ⟨var, u, hu, ht⟩
    obtain ⟨rest, hs, rfl⟩ := pop_eq_ok.mp hu
    cases ht
    exact ⟨rest, var, hs, rfl⟩
  · rintro ⟨rest, var, hs, rfl⟩
    exact ⟨var, _, pop_eq_ok.mpr ⟨rest, hs, rfl⟩, rfl⟩

/-- Taking the entry state of a block. -/
theorem takePending_apply (block : Nat) (s : Execution) :
    takePending block s = match s.frame.pending.find? (·.1 == block) with
      | none => (.ok none, s)
      | some (_, state) => (.ok (some state),
          ⟨{ s.frame with pending := s.frame.pending.filter (·.1 ≠ block) }, s.context⟩) := by
  change (match s.frame.pending.find? (·.1 == block) with
    | none => pure none
    | some (_, state) => do
      modifyFrame fun frame => { frame with pending := s.frame.pending.filter (·.1 ≠ block) }
      pure (some state) : FrameStep (Option BlockState)) s = _
  cases s.frame.pending.find? (·.1 == block) <;> rfl

/-! ## Instructions and blocks -/

variable {ev : Evaluator} {instruction : Instruction} {rest : List Instruction} {flow : Flow}

theorem runInstructions_cons
    (performed : perform ev instruction.opcode (s.atLine instruction.line) = (.ok (), t))
    (flow : flowAfter instruction.opcode = .next) :
    runInstructions ev (instruction :: rest) s = runInstructions ev rest t := by
  have executed : execute ev instruction.opcode (s.atLine instruction.line) = (.ok .next, t) := by
    rw [← flow]
    exact Step.bind_eq_ok.mpr ⟨(), t, performed, rfl⟩
  have moved : modifyFrame (fun frame => { frame with line := instruction.line }) s =
      (.ok (), ⟨{ s.frame with line := instruction.line }, s.context⟩) := rfl
  rw [runInstructions, Step.bind_of_ok moved]
  have synced : syncPosition ⟨{ s.frame with line := instruction.line }, s.context⟩ =
      (.ok (), s.atLine instruction.line) := rfl
  rw [Step.bind_of_ok synced, Step.bind_of_ok executed]

/-- Behind a fault no instruction follows. -/
theorem runInstructions_cons_of_error {fault : Fault}
    (performed : (perform ev instruction.opcode (s.atLine instruction.line)).1 = .error fault) :
    (runInstructions ev (instruction :: rest) s).1 = .error fault := by
  have moved : modifyFrame (fun frame => { frame with line := instruction.line }) s =
      (.ok (), ⟨{ s.frame with line := instruction.line }, s.context⟩) := rfl
  have synced : syncPosition ⟨{ s.frame with line := instruction.line }, s.context⟩ =
      (.ok (), s.atLine instruction.line) := rfl
  rw [runInstructions, Step.bind_of_ok moved, Step.bind_of_ok synced]
  exact Step.fst_bind_of_error (Step.fst_bind_of_error performed)

theorem runInstructions_cons_eq_ok :
    runInstructions ev (instruction :: rest) s = (.ok flow, t) ↔
      ∃ u, perform ev instruction.opcode (s.atLine instruction.line) = (.ok (), u) ∧
        ((flowAfter instruction.opcode = .stop ∧ flow = .stop ∧ t = u) ∨
          (flowAfter instruction.opcode = .next ∧ runInstructions ev rest u = (.ok flow, t))) := by
  rw [runInstructions]
  constructor
  · intro h
    obtain ⟨_, _, hline, h⟩ := Step.bind_eq_ok.mp h
    cases hline
    obtain ⟨_, _, hposition, h⟩ := Step.bind_eq_ok.mp h
    cases hposition
    obtain ⟨after, u, hu, ht⟩ := Step.bind_eq_ok.mp h
    obtain ⟨_, u', hp, hflow⟩ := Step.bind_eq_ok.mp hu
    cases hflow
    refine ⟨u, hp, ?_⟩
    cases hf : flowAfter instruction.opcode with
    | stop =>
      rw [hf] at ht
      cases ht
      exact .inl ⟨rfl, rfl, rfl⟩
    | next =>
      rw [hf] at ht
      exact .inr ⟨rfl, ht⟩
  · rintro ⟨u, hp, h⟩
    refine Step.bind_eq_ok.mpr ⟨(), _, rfl, Step.bind_eq_ok.mpr ⟨(), _, rfl, ?_⟩⟩
    have executed : execute ev instruction.opcode (s.atLine instruction.line) =
        (.ok (flowAfter instruction.opcode), u) := Step.bind_eq_ok.mpr ⟨(), u, hp, rfl⟩
    refine Step.bind_eq_ok.mpr ⟨flowAfter instruction.opcode, u, executed, ?_⟩
    rcases h with ⟨hf, rfl, rfl⟩ | ⟨hf, ht⟩
    · rw [hf]
      rfl
    · rw [hf]
      exact ht

/-- Execute what remains of a block, and go on to the next one where the path does. -/
def finishBlock (ev : Evaluator) (index : Nat) (rest : List Instruction) (isLast : Bool) :
    FrameStep Unit := do
  let flow ← runInstructions ev rest
  if flow = .next ∧ !isLast then jump (index + 1)

/-- Execute what remains of a block, and then the blocks behind it. -/
def finishFrom (ev : Evaluator) (blocks : List Block) (index : Nat) (rest : List Instruction) :
    FrameStep Unit := do
  finishBlock ev index rest (blocks.drop (index + 1)).isEmpty
  runBlocks ev (index + 1) (blocks.drop (index + 1))

theorem finishFrom_eq_ok {blocks : List Block} {index : Nat} :
    finishFrom ev blocks index rest s = (.ok (), t) ↔ ∃ flow u v,
      runInstructions ev rest s = (.ok flow, u) ∧
      ((flow = .next ∧ index + 1 < blocks.length ∧ jump (index + 1) u = (.ok (), v)) ∨
        (¬ (flow = .next ∧ index + 1 < blocks.length) ∧ v = u)) ∧
      runBlocks ev (index + 1) (blocks.drop (index + 1)) v = (.ok (), t) := by
  have hlast : (!(blocks.drop (index + 1)).isEmpty) = true ↔ index + 1 < blocks.length := by
    simp [List.drop_eq_nil_iff]
  rw [finishFrom, Step.bind_eq_ok]
  constructor
  · rintro ⟨_, v, hv, ht⟩
    obtain ⟨flow, u, hu, hv⟩ := Step.bind_eq_ok.mp hv
    refine ⟨flow, u, v, hu, ?_, ht⟩
    by_cases hf : flow = .next ∧ (!(blocks.drop (index + 1)).isEmpty) = true
    · rw [if_pos hf] at hv
      exact .inl ⟨hf.1, hlast.mp hf.2, hv⟩
    · rw [if_neg hf] at hv
      cases hv
      exact .inr ⟨by rwa [← hlast], rfl⟩
  · rintro ⟨flow, u, v, hu, hv, ht⟩
    refine ⟨(), v, Step.bind_eq_ok.mpr ⟨flow, u, hu, ?_⟩, ht⟩
    rcases hv with ⟨hf, hlen, hv⟩ | ⟨hf, rfl⟩
    · rwa [if_pos ⟨hf, hlast.mpr hlen⟩]
    · rw [if_neg (by rwa [hlast])]
      rfl

/-- After an instruction either the rest of the block follows, or the blocks behind it do. -/
theorem finishFrom_cons {blocks : List Block} {index : Nat}
    (h : finishFrom ev blocks index (instruction :: rest) s = (.ok (), t)) :
    ∃ u, perform ev instruction.opcode (s.atLine instruction.line) = (.ok (), u) ∧
      ((flowAfter instruction.opcode = .stop ∧
          runBlocks ev (index + 1) (blocks.drop (index + 1)) u = (.ok (), t)) ∨
        (flowAfter instruction.opcode = .next ∧ finishFrom ev blocks index rest u = (.ok (), t))) := by
  obtain ⟨flow, u, v, hu, hv, ht⟩ := finishFrom_eq_ok.mp h
  obtain ⟨u', hp, hflow⟩ := runInstructions_cons_eq_ok.mp hu
  refine ⟨u', hp, ?_⟩
  rcases hflow with ⟨hf, rfl, rfl⟩ | ⟨hf, hrest⟩
  · obtain rfl : v = u := by simpa using hv
    exact .inl ⟨hf, ht⟩
  · exact .inr ⟨hf, finishFrom_eq_ok.mpr ⟨flow, u, v, hrest, hv, ht⟩⟩

/-- At the end of a block the path goes on to the next one. -/
theorem finishFrom_nil {blocks : List Block} {index : Nat} (hlt : index + 1 < blocks.length)
    (h : finishFrom ev blocks index [] s = (.ok (), t)) :
    ∃ u, jump (index + 1) s = (.ok (), u) ∧
      runBlocks ev (index + 1) (blocks.drop (index + 1)) u = (.ok (), t) := by
  obtain ⟨flow, u, v, hu, hv, ht⟩ := finishFrom_eq_ok.mp h
  cases hu
  rcases hv with ⟨-, -, hjump⟩ | ⟨hn, -⟩
  · exact ⟨v, hjump, ht⟩
  · exact absurd ⟨rfl, hlt⟩ hn

/-- Running the blocks from one of them on. -/
theorem runBlocks_drop {blocks : List Block} {index : Nat} {block : Block}
    (found : blocks[index]? = some block) (s : Execution) :
    runBlocks ev index (blocks.drop index) s = match s.frame.pending.find? (·.1 == index) with
      | none => runBlocks ev (index + 1) (blocks.drop (index + 1)) s
      | some (_, state) => finishFrom ev blocks index block (s.atBlock index state) := by
  obtain ⟨hlt, rfl⟩ := List.getElem?_eq_some_iff.mp found
  rw [List.drop_eq_getElem_cons hlt, runBlocks, Step.bind_apply, runBlock, Step.bind_apply,
    takePending_apply]
  cases s.frame.pending.find? (·.1 == index) with
  | none => rfl
  | some entry =>
    simp only [finishFrom]
    rw [Step.bind_apply, modifyFrame_apply]
    conv => rhs; rw [Step.bind_apply]
    rfl

end FrameStep

/-! ## Calls of functions -/

/-- A call that is not followed: the function is running, or calls are nested too deep. -/
def Context.Guards (ctx : Context) (id : FunctionId) : Prop :=
  id ∈ ctx.callStack ∨ ctx.options.maxCallDepth ≤ ctx.callStack.length

section Calls

variable {ev : Evaluator} {id : FunctionId} {function : InterpretedFunction} {ctx : Context}

/-- What a function is is read off the heap. -/
theorem functionAt_apply {info : FunctionInfo} (known : ctx.heap.functionAt id = info) :
    Analysis.fromHeap (·.functionAt id) ctx = (.ok info, ctx) :=
  congrArg (fun info => (Except.ok info, ctx)) known

/-- A call of an interpreted function either is not followed or runs the function. -/
theorem callId_interpreted (known : ctx.heap.functionAt id = .interpreted function) (args : Args)
    (receiver : Option Value) :
    callId ev id args receiver ctx =
      (if (decide (id ∈ ctx.callStack) ||
          decide (ctx.options.maxCallDepth ≤ ctx.callStack.length)) = true
        then pure Value.any.var
        else do
          let frame ← ev.runFunction id args receiver
          let returned ← Analysis.fromHeap fun heap => (heap.frameAt frame).returned?
          pure (returned.getD Value.any.var) : Analysis Variable) ctx := by
  unfold callId
  rw [Step.bind_of_ok (functionAt_apply known)]
  rfl

/-- A call of a declared function is one of its declaration. -/
theorem callId_declared {declared : DeclaredFunction}
    (known : ctx.heap.functionAt id = .declared declared) (args : Args) (receiver : Option Value) :
    callId ev id args receiver ctx = callDeclared ev declared (args.withReceiver receiver) ctx := by
  unfold callId
  rw [Step.bind_of_ok (functionAt_apply known)]

theorem interpretedFunction_apply (known : ctx.heap.functionAt id = .interpreted function) :
    interpretedFunction id ctx = (.ok function, ctx) := by
  unfold interpretedFunction
  rw [Step.bind_of_ok (functionAt_apply known)]
  rfl

theorem callId_of_guards (known : ctx.heap.functionAt id = .interpreted function)
    (guards : ctx.Guards id) (args : Args) (receiver : Option Value) :
    callId ev id args receiver ctx = (.ok Value.any.var, ctx) := by
  rw [callId_interpreted known, if_pos (by simpa [Context.Guards] using guards)]
  rfl

theorem callId_of_not_guards (known : ctx.heap.functionAt id = .interpreted function)
    (entered : ¬ ctx.Guards id) (args : Args) (receiver : Option Value) :
    callId ev id args receiver ctx = (do
      let frame ← ev.runFunction id args receiver
      let returned ← Analysis.fromHeap fun heap => (heap.frameAt frame).returned?
      pure (returned.getD Value.any.var) : Analysis Variable) ctx := by
  rw [callId_interpreted known, if_neg (by simpa [Context.Guards] using entered)]

end Calls

/-! ## Frames -/

/-- A frame that has not run yet runs to its end where its blocks do, the first of them entered with
the initial locals. -/
theorem FrameStep.runAll_eq_ok {ev : Evaluator} {s t : Execution} :
    runAll ev s = (.ok (), t) ↔ s.frame.finished = false ∧ ∃ u,
      runBlocks ev 0 s.frame.code.blocks
        ⟨{ s.frame with pending := startPending s.frame }, s.context⟩ = (.ok (), u) ∧
      t = ⟨{ u.frame with finished := true }, u.context⟩ := by
  change (if s.frame.finished then throw (.inconsistent (.frameHasRun s.frame.name)) else do
      modifyFrame fun frame => { frame with pending := startPending frame }
      runBlocks ev 0 s.frame.code.blocks
      modifyFrame fun frame => { frame with finished := true } : FrameStep Unit) s = _ ↔ _
  cases s.frame.finished with
  | true => exact ⟨fun h => (by cases h), fun h => (by simp at h)⟩
  | false =>
    simp only [Bool.false_eq_true, if_false, true_and]
    constructor
    · intro h
      obtain ⟨_, _, hstart, h⟩ := Step.bind_eq_ok.mp h
      cases hstart
      obtain ⟨_, u, hu, ht⟩ := Step.bind_eq_ok.mp h
      cases ht
      exact ⟨u, hu, rfl⟩
    · rintro ⟨u, hu, rfl⟩
      exact Step.bind_eq_ok.mpr ⟨(), _, rfl, Step.bind_eq_ok.mpr ⟨(), u, hu, rfl⟩⟩

theorem Frame.runToEnd_eq_ok {ev : Evaluator} {frame done : Frame} {context context' : Context} :
    frame.runToEnd ev context = (.ok done, context') ↔
      FrameStep.runAll ev ⟨frame, context⟩ = (.ok (), ⟨done, context'⟩) := by
  rw [Frame.runToEnd, Step.bind_apply]
  change (match Frame.run ev frame context with
    | (.ok (frame, result), context) =>
      (do MonadExcept.ofExcept result; pure frame : Analysis Frame) context
    | (.error fault, context) => (.error fault, context)) = _ ↔ _
  unfold Frame.run
  rcases FrameStep.runAll ev ⟨frame, context⟩ with ⟨_ | _, _, _⟩
  · exact ⟨fun h => (by cases h), fun h => (by cases h)⟩
  · constructor
    · intro h
      cases h
      rfl
    · intro h
      cases h
      rfl

end StubInference
