import StubInference.Proofs.Frame.Simulation

/-!
# The run of a whole frame

A frame of a function whose instructions stay within the locals and the stack only ever adds to
what it has gathered: entry states, the locals at returns and the returned variables. The heap is
left alone.

## Main definitions

* `Frame.Proper` — every variable that a frame holds is proper
* `Frame.HasReturned` — a return that a frame has gathered
* `Advances` — what one part of a run keeps for the next

## Main results

* `perform_advances`, `runInstructions_advances`, `runBlocks_reaches` — instructions, blocks, and
  how a run arrives at a block that an edge has reached
-/

namespace StubInference

open FrameStep

/-- Every variable that a frame holds is proper. -/
structure Frame.Proper (frame : Frame) : Prop where
  state : frame.state.Proper
  pending : PendingProper frame.pending
  final : NameMap.Proper frame.finalLocals
  returns : ∀ v ∈ frame.returns, v.Proper

/-- What a frame has gathered tracks a return with these locals and this variable. -/
structure Frame.HasReturned (frame : Frame) (locals : NameMap Variable) (var : Variable) :
    Prop where
  locals : LocalsTracked locals frame.finalLocals
  returned : ∃ w ∈ frame.returns, var.TrackedBy w

/-- A part of a run of a function frame. Entry states of blocks from a given one on are only
added to. -/
structure Advances (first : Nat) (s t : Execution) : Prop where
  code : t.frame.code = s.frame.code
  site : t.frame.site = s.frame.site
  kind : t.frame.kind = s.frame.kind
  heap : t.context.heap = s.context.heap
  proper : t.frame.Proper
  awaits : ∀ target state, first ≤ target → Awaits s.frame.pending target state →
    Awaits t.frame.pending target state
  returned : ∀ locals var, s.frame.HasReturned locals var → t.frame.HasReturned locals var

namespace Advances

variable {first later : Nat} {s t u : Execution}

theorem refl (proper : s.frame.Proper) : Advances first s s :=
  ⟨rfl, rfl, rfl, rfl, proper, fun _ _ _ h => h, fun _ _ h => h⟩

theorem trans (h : Advances first s t) (h' : Advances later t u) :
    Advances (max first later) s u where
  code := h'.code.trans h.code
  site := h'.site.trans h.site
  kind := h'.kind.trans h.kind
  heap := h'.heap.trans h.heap
  proper := h'.proper
  awaits target state hle ha :=
    h'.awaits target state (by omega) (h.awaits target state (by omega) ha)
  returned locals var hr := h'.returned locals var (h.returned locals var hr)

theorem mono (h : Advances first s t) (hle : first ≤ later) : Advances later s t :=
  { h with awaits := fun target state hl => h.awaits target state (Nat.le_trans hle hl) }

/-- A part of a run that changes the locals and the stack alone. -/
theorem ofState (hf : t.frame = { s.frame with state := t.frame.state })
    (heap : t.context.heap = s.context.heap) (proper : s.frame.Proper)
    (state : t.frame.state.Proper) : Advances first s t := by
  have hpending : t.frame.pending = s.frame.pending := by rw [hf]
  have hfinal : t.frame.finalLocals = s.frame.finalLocals := by rw [hf]
  have hreturns : t.frame.returns = s.frame.returns := by rw [hf]
  exact
    { code := by rw [hf]
      site := by rw [hf]
      kind := by rw [hf]
      heap
      proper := ⟨state, hpending ▸ proper.pending, hfinal ▸ proper.final, hreturns ▸ proper.returns⟩
      awaits := fun _ _ _ h => hpending ▸ h
      returned := fun _ _ h => ⟨hfinal ▸ h.locals, hreturns ▸ h.returned⟩ }

end Advances

/-! ## Instructions -/

section Instructions

variable {ev : Evaluator} {op : Opcode} {s t : Execution} {target : Nat} {state : BlockState}

/-- An instruction on the operand stack, executed on proper variables. -/
theorem perform_onStack (hop : op.onStack = true) (proper : s.frame.Proper)
    (ht : perform ev op s = (.ok (), t)) :
    Alongside s.frame s.frame s.context.heap t t := by
  have along : Alongside s.frame s.frame s.context.heap s s :=
    ⟨rfl, rfl, rfl, rfl, .refl proper.state.stack⟩
  have follows := perform_follows ev s.context.heap hop (SameCode.mk rfl rfl)
    (.refl proper.state.locals) (fun name _ => (Option.eq_none_or_eq_some _).elim .inr
      fun ⟨v, hv⟩ => .inl (by simp [hv]))
  obtain ⟨_, t', ht', along', -⟩ := follows along ht
  obtain rfl : t = t' := congrArg Prod.snd (ht.symm.trans ht')
  exact along'

/-- An edge: entry states are only added to. -/
theorem enter_advances (proper : s.frame.Proper) (hstate : state.Proper)
    (ht : enter target state s = (.ok (), t)) :
    Advances 0 s t ∧ t.frame.state = s.frame.state ∧ t.frame.block = s.frame.block := by
  rcases enter_eq_ok.mp ht with ⟨-, -, pending, hp, rfl⟩ | ⟨-, rfl⟩
  · refine ⟨⟨rfl, rfl, rfl, rfl, ?_, fun _ _ _ h => h.addPending hstate hp,
      fun _ _ h => ⟨h.locals, h.returned⟩⟩, rfl, rfl⟩
    exact ⟨proper.state, proper.pending.addPending hstate hp, proper.final, proper.returns⟩
  · exact ⟨.refl proper, rfl, rfl⟩

/-- An edge that leads forward brings its state to its target. -/
theorem enter_awaits {here : BlockState} (proper : s.frame.Proper) (hstate : state.Proper)
    (tracked : here.TrackedBy state) (forward : s.frame.block < target)
    (ht : enter target state s = (.ok (), t)) : Awaits t.frame.pending target here := by
  rcases enter_eq_ok.mp ht with ⟨-, -, pending, hp, rfl⟩ | ⟨hle, -⟩
  · exact awaits_addPending tracked proper.pending hstate hp
  · omega

/-- The conditional jumps take the top of the stack off and jump. -/
theorem perform_of_isCondition (ev : Evaluator) (hop : op.isCondition = true) : ∃ target,
    op.jumpTarget? = some target ∧ perform ev op = (do let _ ← pop op; jump target) ∧
      ∀ jumps, FrameStep.take ev op jumps = (do let _ ← pop op) := by
  cases op with
  | popJumpIfFalse target | popJumpIfTrue target | popJumpIfNone target
  | popJumpIfNotNone target => exact ⟨target, rfl, rfl, fun _ => rfl⟩
  | _ => simp [Opcode.isCondition] at hop

/-- An execution without the top of its stack. -/
theorem proper_popped {rest : List Variable} {v : Variable} (proper : s.frame.Proper)
    (hs : s.frame.state.stack = v :: rest) :
    v.Proper ∧ ({ s.frame.state with stack := rest } : BlockState).Proper := by
  have stack := proper.state.stack
  rw [hs] at stack
  obtain ⟨hv, hrest⟩ := List.forall_mem_cons.mp stack
  exact ⟨hv, proper.state.locals, hrest⟩

/-- The kinds of instructions that stay within the locals and the stack. -/
theorem isLocal_cases (hop : op.isLocal = true) :
    op.onStack = true ∨ op.isCondition = true ∨ (∃ name, op = .storeFast name) ∨
      (∃ name, op = .deleteFast name) ∨ (∃ target, op = .forIter target) ∨
      (∃ target, op = .jumpForward target ∨ op = .jumpBackward target) ∨ op = .returnValue := by
  cases op <;> simp_all [Opcode.isLocal, Opcode.onStack, Opcode.isCondition]

/-- One instruction of a run. -/
theorem perform_advances (hop : op.isLocal = true) (function : s.frame.kind = .function)
    (proper : s.frame.Proper) (ht : perform ev op s = (.ok (), t)) :
    Advances 0 s t ∧ t.frame.block = s.frame.block := by
  rcases isLocal_cases hop with
    hop | hop | ⟨name, rfl⟩ | ⟨name, rfl⟩ | ⟨target, rfl⟩ | ⟨target, rfl | rfl⟩ | rfl
  · have along := perform_onStack hop proper ht
    have stack : t.frame.state.Proper :=
      ⟨along.locals_here ▸ proper.state.locals, Variable.TrackedBy.proper_all along.stack⟩
    exact ⟨.ofState (by rw [along.here]; rfl) along.heapHere proper stack, by rw [along.here]; rfl⟩
  · obtain ⟨target, -, hperform, -⟩ := perform_of_isCondition ev hop
    rw [hperform] at ht
    obtain ⟨v, u, hu, hjump⟩ := Step.bind_eq_ok.mp ht
    obtain ⟨rest, hs, rfl⟩ := pop_eq_ok.mp hu
    obtain ⟨-, hstate⟩ := proper_popped proper hs
    have popped : Advances 0 s (s.withState { s.frame.state with stack := rest }) :=
      .ofState rfl rfl proper hstate
    rw [jump_eq_ok] at hjump
    obtain ⟨entered, -, hblock⟩ := enter_advances popped.proper hstate hjump
    exact ⟨popped.trans entered, hblock⟩
  · rw [perform] at ht
    obtain ⟨v, u, hu, hstore⟩ := Step.bind_eq_ok.mp ht
    obtain ⟨rest, hs, rfl⟩ := pop_eq_ok.mp hu
    obtain ⟨hv, hstate⟩ := proper_popped proper hs
    rw [storeLocal_apply (by exact function)] at hstore
    cases hstore
    exact ⟨.ofState rfl rfl proper ⟨hstate.locals.insert hv, hstate.stack⟩, rfl⟩
  · rw [perform, deleteLocal_apply function] at ht
    cases ht
    exact ⟨.ofState rfl rfl proper ⟨proper.state.locals.erase, proper.state.stack⟩, rfl⟩
  · rw [perform] at ht
    obtain ⟨v, rest, u, hs, hu, hpush⟩ := iterate_eq_ok.mp ht
    obtain ⟨-, hstate⟩ := proper_popped proper hs
    obtain ⟨entered, hkept, hblock⟩ := enter_advances proper hstate hu
    cases hpush
    refine ⟨entered.trans (.ofState rfl rfl entered.proper ?_), hblock⟩
    refine ⟨entered.proper.state.locals, List.forall_mem_cons.mpr ⟨?_, entered.proper.state.stack⟩⟩
    exact .ofValueAt .any _
  · rw [perform, jump_eq_ok] at ht
    obtain ⟨entered, -, hblock⟩ := enter_advances proper proper.state ht
    exact ⟨entered, hblock⟩
  · rw [perform, jump_eq_ok] at ht
    obtain ⟨entered, -, hblock⟩ := enter_advances proper proper.state ht
    exact ⟨entered, hblock⟩
  · rw [perform] at ht
    obtain ⟨rest, v, hs, rfl⟩ := returnTop_eq_ok.mp ht
    obtain ⟨hv, hstate⟩ := proper_popped proper hs
    refine ⟨⟨rfl, rfl, rfl, rfl, ?_, fun _ _ _ h => h, ?_⟩, rfl⟩
    · refine ⟨hstate, proper.pending, proper.final.mergeLocals proper.state.locals, ?_⟩
      simpa [or_imp, forall_and] using ⟨proper.returns, hv⟩
    · intro locals var h
      obtain ⟨w, hw, tracked⟩ := h.returned
      exact ⟨h.locals.mergeLocals_left proper.state.locals, w, List.mem_append_left _ hw, tracked⟩

end Instructions

/-! ## Blocks -/

section Blocks

variable {ev : Evaluator} {s t : Execution} {blocks : List Block} {rest : List Instruction}
  {index target : Nat} {flow : Flow}

theorem advances_atLine (proper : s.frame.Proper) (line : Nat) : Advances 0 s (s.atLine line) :=
  ⟨rfl, rfl, rfl, rfl, ⟨proper.state, proper.pending, proper.final, proper.returns⟩,
    fun _ _ _ h => h, fun _ _ h => ⟨h.locals, h.returned⟩⟩

/-- Entering a block uses up its entry state and no other. -/
theorem advances_atBlock {state : BlockState} (proper : s.frame.Proper) (hstate : state.Proper) :
    Advances (index + 1) s (s.atBlock index state) where
  code := rfl
  site := rfl
  kind := rfl
  heap := rfl
  proper := ⟨hstate, fun _ he => proper.pending _ (List.mem_of_mem_filter he), proper.final,
    proper.returns⟩
  awaits _ _ hle h := h.filter (by omega)
  returned _ _ h := ⟨h.locals, h.returned⟩

theorem runInstructions_advances (hlocal : ∀ i ∈ rest, i.opcode.isLocal = true)
    (function : s.frame.kind = .function) (proper : s.frame.Proper)
    (ht : runInstructions ev rest s = (.ok flow, t)) :
    Advances 0 s t ∧ t.frame.block = s.frame.block := by
  induction rest generalizing s with
  | nil =>
    cases ht
    exact ⟨.refl proper, rfl⟩
  | cons instruction rest ih =>
    obtain ⟨hop, hrest⟩ := List.forall_mem_cons.mp hlocal
    obtain ⟨u, hu, h⟩ := runInstructions_cons_eq_ok.mp ht
    have lined := advances_atLine proper instruction.line
    obtain ⟨performed, hblock⟩ := perform_advances hop (by exact function) lined.proper hu
    have first := lined.trans performed
    rcases h with ⟨-, -, rfl⟩ | ⟨-, h⟩
    · exact ⟨first, hblock⟩
    · obtain ⟨more, hblock'⟩ := ih hrest (first.kind.trans function) first.proper h
      exact ⟨first.trans more, hblock'.trans hblock⟩

/-- What remains of a block is run before the blocks behind it. -/
theorem finishFrom_splits (hlocal : ∀ i ∈ rest, i.opcode.isLocal = true)
    (function : s.frame.kind = .function) (proper : s.frame.Proper)
    (ht : finishFrom ev blocks index rest s = (.ok (), t)) : ∃ u, Advances 0 s u ∧
      runBlocks ev (index + 1) (blocks.drop (index + 1)) u = (.ok (), t) := by
  obtain ⟨flow, u, v, hu, hv, ht⟩ := finishFrom_eq_ok.mp ht
  obtain ⟨first, -⟩ := runInstructions_advances hlocal function proper hu
  rcases hv with ⟨-, -, hjump⟩ | ⟨-, rfl⟩
  · rw [jump_eq_ok] at hjump
    obtain ⟨entered, -, -⟩ := enter_advances first.proper first.proper.state hjump
    exact ⟨v, first.trans entered, ht⟩
  · exact ⟨v, first, ht⟩

theorem runBlocks_advances (hlocal : ∀ block ∈ blocks, ∀ i ∈ block, i.opcode.isLocal = true)
    (function : s.frame.kind = .function) (proper : s.frame.Proper)
    (ht : runBlocks ev index (blocks.drop index) s = (.ok (), t)) :
    Advances blocks.length s t := by
  induction hk : blocks.length - index generalizing index s with
  | zero =>
    rw [List.drop_eq_nil_of_le (by omega)] at ht
    cases ht
    exact .refl proper
  | succ k ih =>
    have found : blocks[index]? = some blocks[index] := List.getElem?_eq_getElem (by omega)
    rw [runBlocks_drop found] at ht
    cases hp : s.frame.pending.find? (·.1 == index) with
    | none =>
      rw [hp] at ht
      exact ih function proper ht (by omega)
    | some entry =>
      rw [hp] at ht
      have entered : Advances (index + 1) s (s.atBlock index entry.2) :=
        advances_atBlock proper (proper.pending entry (List.mem_of_find?_eq_some hp))
      obtain ⟨u, first, hu⟩ :=
        finishFrom_splits (hlocal _ (List.getElem_mem _)) (by exact function) entered.proper ht
      have more := ih (first.kind.trans function) first.proper hu (by omega)
      exact (entered.trans (first.trans more)).mono (by omega)

/-- A run arrives at every block that an edge has reached, in a state that tracks the one that the
edge brought along. -/
theorem runBlocks_reaches {block : Block} {state : BlockState}
    (hlocal : ∀ block ∈ blocks, ∀ i ∈ block, i.opcode.isLocal = true)
    (function : s.frame.kind = .function) (proper : s.frame.Proper) (hle : index ≤ target)
    (found : blocks[target]? = some block) (awaits : Awaits s.frame.pending target state)
    (ht : runBlocks ev index (blocks.drop index) s = (.ok (), t)) :
    ∃ u, Advances (target + 1) s u ∧ u.frame.block = target ∧ state.TrackedBy u.frame.state ∧
      finishFrom ev blocks target block u = (.ok (), t) := by
  induction hk : target - index generalizing index s with
  | zero =>
    obtain rfl : index = target := by omega
    obtain ⟨known, hp, tracked⟩ := awaits
    rw [runBlocks_drop found, hp] at ht
    exact ⟨s.atBlock index known,
      advances_atBlock proper (proper.pending _ (List.mem_of_find?_eq_some hp)), rfl, tracked, ht⟩
  | succ k ih =>
    obtain ⟨hlt, -⟩ := List.getElem?_eq_some_iff.mp found
    have here : blocks[index]? = some blocks[index] := List.getElem?_eq_getElem (by omega)
    rw [runBlocks_drop here] at ht
    cases hp : s.frame.pending.find? (·.1 == index) with
    | none =>
      rw [hp] at ht
      exact ih function proper (by omega) awaits ht (by omega)
    | some entry =>
      rw [hp] at ht
      have entered : Advances (index + 1) s (s.atBlock index entry.2) :=
        advances_atBlock proper (proper.pending entry (List.mem_of_find?_eq_some hp))
      obtain ⟨u, first, hu⟩ :=
        finishFrom_splits (hlocal _ (List.getElem_mem _)) (by exact function) entered.proper ht
      have before : Advances (index + 1) s u := (entered.trans first).mono (by omega)
      obtain ⟨v, more, hblock, tracked, hv⟩ := ih (before.kind.trans function) before.proper
        (by omega) (before.awaits target state (by omega) awaits) hu (by omega)
      exact ⟨v, (before.trans more).mono (by omega), hblock, tracked, hv⟩

end Blocks

end StubInference
